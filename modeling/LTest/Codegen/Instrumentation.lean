import LTest.Codegen.YieldPass

/-!
# The yield pass instruments exactly the right places

The loop over a block keeps all instructions in their order and leaves no access to memory without a
yield behind it, except at the end of the block. So a second pass over the block finds nothing to
do. Over a module the pass instruments the functions it visits and changes no other; it does not
visit a function that may run inside an atomic operation. These functions are therefore the same
before and after the pass, and a second pass finds the same ones.

## Main definitions

* `YieldsInserted` — a list of instructions with yields inserted
* `Interrupted` — accesses to memory are followed by a yield
* `IrModule.Calls`, `IrModule.MayRunAtomically` — direct calls of functions with a body, and what
  they reach from an atomic function

## Main results

* `IrModule.mem_allAtomic_iff` — the pass collects all that may run atomically
* `IrModule.run_exact` — what the pass does to a module
-/

namespace LTest

namespace Codegen

variable {ι : Type}

/-! ### One block -/

variable {insn : Instruction ι}

/-- The second list is the first one with yields inserted: the first one is what is left when they
are erased. -/
inductive YieldsInserted : List (Instruction ι) → List (Instruction ι) → Prop
  | nil : YieldsInserted [] []
  | keep (insn : Instruction ι) {l l' : List (Instruction ι)} :
      YieldsInserted l l' → YieldsInserted (insn :: l) (insn :: l')
  | insert {l l' : List (Instruction ι)} :
      YieldsInserted l l' → YieldsInserted l (coroYield :: l')

/-- A load, a store, an atomic instruction, or a call of a function that is named like one. -/
def Instruction.AccessesMemory (insn : Instruction ι) : Prop :=
  insn.opcode ∈ [Opcode.load, .store, .atomicRMW, .atomicCmpXchg] ∨
    ∃ name, insn.opcode.calledFunction = some name ∧ contains name "atomic" = true ∧
      ∃ part ∈ ["load", "store", "exchange", "compare_exchange", "fetch_"],
        contains name part = true

theorem needInterrupt_iff : insn.needInterrupt = true ↔ insn.AccessesMemory := by
  have hcall : insn.isAtomicWrapperCall = true ↔
      ∃ name, insn.opcode.calledFunction = some name ∧ contains name "atomic" = true ∧
        ∃ part ∈ ["load", "store", "exchange", "compare_exchange", "fetch_"],
          contains name part = true := by
    rw [Instruction.isAtomicWrapperCall]
    cases insn.opcode.calledFunction <;> simp [or_assoc]
  rw [Instruction.needInterrupt, Instruction.AccessesMemory, ← hcall]
  clear hcall
  split <;> simp_all

theorem itsYieldInst_iff : insn.itsYieldInst = true ↔ insn.opcode = .call (some coroYieldName) := by
  rw [Instruction.itsYieldInst]
  split
  · rename_i name hopcode
    simp [hopcode]
  · rename_i hnot
    exact iff_of_false Bool.false_ne_true fun h => hnot _ h

section

variable (l : List (Instruction ι))

/-- Each access to memory that is not the last instruction is followed by a call of `CoroYield`. -/
def Interrupted : Prop :=
  ∀ before insn next after, l = before ++ insn :: next :: after →
    insn.AccessesMemory → next.opcode = .call (some coroYieldName)

theorem YieldsInserted.refl : YieldsInserted l l := by
  induction l with
  | nil => exact .nil
  | cons insn l ih => exact .keep insn ih

theorem yieldsInserted_insertInto : YieldsInserted l (insertInto l) := by
  fun_induction insertInto l with
  | case1 => exact .nil
  | case2 last => exact .refl _
  | case3 insn next rest _ ih => exact .keep insn (.insert ih)
  | case4 insn next rest _ ih => exact .keep insn ih

theorem interrupted_cons {next : Instruction ι} {rest : List (Instruction ι)} :
    Interrupted (insn :: next :: rest) ↔
      (insn.needInterrupt = true → next.itsYieldInst = true) ∧ Interrupted (next :: rest) := by
  rw [needInterrupt_iff, itsYieldInst_iff]
  constructor
  · intro h
    refine ⟨h [] insn next rest rfl, fun before i n after heq => ?_⟩
    exact h (insn :: before) i n after (congrArg (insn :: ·) heq)
  · rintro ⟨hhead, htail⟩ before i n after heq
    cases before with
    | nil =>
      cases heq
      exact hhead
    | cons b before => exact htail before i n after (List.cons.inj heq).2

theorem needInterrupt_coroYield : (coroYield : Instruction ι).needInterrupt = false := by
  have hname : contains coroYieldName "atomic" = false := by decide
  show (coroYield : Instruction ι).isAtomicWrapperCall = false
  simp [Instruction.isAtomicWrapperCall, coroYield, Opcode.calledFunction, hname]

theorem itsYieldInst_coroYield : (coroYield : Instruction ι).itsYieldInst = true := by
  rfl

theorem head_insertInto (insn : Instruction ι) (rest : List (Instruction ι)) :
    ∃ rest', insertInto (insn :: rest) = insn :: rest' := by
  cases rest with
  | nil => exact ⟨[], rfl⟩
  | cons next rest =>
    rw [insertInto]
    split <;> exact ⟨_, rfl⟩

theorem interrupted_insertInto : Interrupted (insertInto l) := by
  fun_induction insertInto l with
  | case1 =>
    intro before insn next after heq
    simp at heq
  | case2 last =>
    intro before insn next after heq
    have hlength := congrArg List.length heq
    simp at hlength
    omega
  | case3 insn next rest hneeds ih =>
    obtain ⟨rest', hrest⟩ := head_insertInto next rest
    rw [hrest] at ih ⊢
    refine interrupted_cons.mpr ⟨fun _ => itsYieldInst_coroYield, interrupted_cons.mpr ⟨?_, ih⟩⟩
    rw [needInterrupt_coroYield]
    exact nofun
  | case4 insn next rest hneeds ih =>
    obtain ⟨rest', hrest⟩ := head_insertInto next rest
    rw [hrest] at ih ⊢
    refine interrupted_cons.mpr ⟨fun hinsn => ?_, ih⟩
    simpa [hinsn] using hneeds

end

/-- There is nothing to do where each access is followed by a yield. -/
theorem Interrupted.insertInto_eq {l : List (Instruction ι)} (h : Interrupted l) :
    insertInto l = l := by
  fun_induction insertInto l with
  | case1 => rfl
  | case2 last => rfl
  | case3 insn next rest hneeds ih =>
    have hnext := (interrupted_cons.mp h).1
    simp_all
  | case4 insn next rest hneeds ih => rw [ih (interrupted_cons.mp h).2]

theorem BasicBlock.instrument_instrument (B : BasicBlock ι) :
    B.instrument.instrument = B.instrument := by
  rw [BasicBlock.mk.injEq]
  exact (interrupted_insertInto B.instructions).insertInto_eq

theorem IrFunction.instrument_instrument (F : IrFunction ι) :
    F.instrument.instrument = F.instrument := by
  rw [IrFunction.mk.injEq]
  refine ⟨rfl, (List.map_map ..).trans (List.map_congr_left fun B _ => ?_)⟩
  exact B.instrument_instrument

/-! ### Functions that may run atomically -/

namespace IrModule

/-- The first function calls the second one directly, and that has a body. -/
def Calls (M : IrModule ι) (a b : String) : Prop :=
  ∃ F ∈ M.functions, F.name = a ∧
    (∃ B ∈ F.blocks, ∃ insn ∈ B.instructions,
      insn.opcode = .call (some b) ∨ insn.opcode = .invoke (some b)) ∧
    ∃ G ∈ M.functions, G.name = b ∧ G.blocks ≠ []

/-- The function is annotated as atomic, or reached by calls from one that is. -/
def MayRunAtomically (M : IrModule ι) (index : FunIndex) (name : String) : Prop :=
  ∃ root ∈ M.functions, isAtomic index root.name = true ∧
    Relation.ReflTransGen M.Calls root.name name

/-- The names of the functions. -/
def names (M : IrModule ι) : Finset String := (M.functions.map IrFunction.name).toFinset

theorem card_names (M : IrModule ι) : M.names.card = M.functions.length := by
  rw [names, List.toFinset_card_of_nodup M.nodup, List.length_map]

variable {M : IrModule ι} {F : IrFunction ι} {name : String} {V : Finset String}
  {build : Build} {index : FunIndex}

theorem isDefined_iff : M.isDefined name = true ↔
    ∃ G ∈ M.functions, G.name = name ∧ G.blocks ≠ [] := by
  constructor
  · intro h
    obtain ⟨G, hG, hname, hdecl⟩ := exists_of_isDefined h
    refine ⟨G, (mem_of_getFunction hG).1, hname, ?_⟩
    simpa [IrFunction.isDeclaration] using hdecl
  · rintro ⟨G, hG, rfl, hblocks⟩
    rw [isDefined, getFunction_of_mem hG]
    simpa [IrFunction.isDeclaration] using hblocks

theorem mem_names_of_isDefined (h : M.isDefined name = true) : name ∈ M.names := by
  obtain ⟨G, hG, rfl, -⟩ := isDefined_iff.mp h
  exact List.mem_toFinset.mpr (List.mem_map_of_mem hG)

theorem mem_callees_iff {a b : String} : b ∈ M.callees a ↔ M.Calls a b := by
  constructor
  · intro h
    cases hF : M.getFunction a with
    | none =>
      rw [callees, hF] at h
      cases h
    | some F =>
      rw [callees, hF] at h
      obtain ⟨B, hB, hcallee⟩ := List.mem_flatMap.mp h
      obtain ⟨insn, hinsn, hcallee⟩ := List.mem_filterMap.mp hcallee
      obtain ⟨hopcode, hdefined⟩ := definedCallee_eq_some.mp hcallee
      obtain ⟨hmem, hname⟩ := mem_of_getFunction hF
      exact ⟨F, hmem, hname, ⟨B, hB, insn, hinsn, hopcode⟩, isDefined_iff.mp hdefined⟩
  · rintro ⟨F, hF, rfl, ⟨B, hB, insn, hinsn, hopcode⟩, hG⟩
    rw [callees, getFunction_of_mem hF]
    refine List.mem_flatMap.mpr ⟨B, hB, List.mem_filterMap.mpr ⟨insn, hinsn, ?_⟩⟩
    exact definedCallee_eq_some.mpr ⟨hopcode, isDefined_iff.mpr hG⟩

theorem mem_names_of_mem_callees (a : String) : ∀ b ∈ M.callees a, b ∈ M.names := by
  intro b hb
  obtain ⟨-, -, -, -, hG⟩ := mem_callees_iff.mp hb
  exact mem_names_of_isDefined (isDefined_iff.mpr hG)

theorem mem_names_of_mem_yieldCallees (a : String) : ∀ b ∈ M.yieldCallees build a, b ∈ M.names := by
  intro b hb
  rw [yieldCallees] at hb
  split at hb
  · cases hF : M.getFunction a with
    | none =>
      rw [hF] at hb
      cases hb
    | some F =>
      rw [hF] at hb
      exact mem_names_of_isDefined (isDefined_of_mem_definedCallees hb)
  · cases hb

theorem mem_names_of_mem_filter {p : String → Bool} :
    ∀ a ∈ (M.functions.map IrFunction.name).filter p, a ∈ M.names := fun _ ha =>
  List.mem_toFinset.mpr (List.mem_filter.mp ha).1

/-! ### Two passes -/

theorem closedBut_allAtomic (M : IrModule ι) (index : FunIndex) :
    Marking.ClosedBut M.callees ∅ (· ∈ M.allAtomic index) := by
  rw [allAtomic_eq]
  exact Marking.closedBut_markAll M.names (fun a _ => mem_names_of_mem_callees a)
    mem_names_of_mem_filter (Nat.le_of_eq M.card_names)

theorem mem_allAtomic_of_isAtomic (hF : F ∈ M.functions) (hatomic : isAtomic index F.name = true) :
    F.name ∈ M.allAtomic index := by
  rw [allAtomic_eq]
  refine ((Marking.adds_markAll M.names (fun a _ => mem_names_of_mem_callees a)
    mem_names_of_mem_filter (Nat.le_of_eq M.card_names)).roots _ ?_).resolve_right
      (Finset.notMem_empty _)
  exact List.mem_filter.mpr ⟨List.mem_map_of_mem hF, hatomic⟩

/-- A property of the atomic functions that passes to callees. -/
theorem forall_mem_allAtomic {p : String → Prop} (hp : ∀ a, p a → ∀ b ∈ M.callees a, p b)
    (hroots : ∀ F ∈ M.functions, isAtomic index F.name = true → p F.name) :
    ∀ a ∈ M.allAtomic index, p a := by
  rw [allAtomic_eq]
  refine Marking.forall_mem_markAll (fun a ha b hb => .inl (hp a ha b hb)) _ fun a ha => ?_
  obtain ⟨hmem, hatomic⟩ := List.mem_filter.mp ha
  obtain ⟨F, hF, rfl⟩ := List.mem_map.mp hmem
  exact .inl (hroots F hF hatomic)

/-- **The pass collects what may run atomically.** -/
theorem mem_allAtomic_iff : name ∈ M.allAtomic index ↔ M.MayRunAtomically index name := by
  constructor
  · refine forall_mem_allAtomic (fun a ha b hb => ?_) (fun F hF hatomic => ?_) name
    · obtain ⟨root, hroot, hatomic, hreach⟩ := ha
      exact ⟨root, hroot, hatomic, hreach.tail (mem_callees_iff.mp hb)⟩
    · exact ⟨F, hF, hatomic, .refl⟩
  · rintro ⟨root, hroot, hatomic, hreach⟩
    induction hreach with
    | refl => exact mem_allAtomic_of_isAtomic hroot hatomic
    | tail _ hcalls ih =>
      exact (closedBut_allAtomic M index _ ih _ (mem_callees_iff.mpr hcalls)).resolve_right
        (Finset.notMem_empty _)

theorem adds_visited (M : IrModule ι) (build : Build) (index : FunIndex) :
    Marking.Adds (M.yieldCallees build) (M.allAtomic index)
      ((M.functions.map IrFunction.name).filter (build.isNonAtomic index)) ∅
      (M.visited build index) :=
  Marking.adds_markAll M.names (fun a _ => mem_names_of_mem_yieldCallees a)
    mem_names_of_mem_filter (Nat.le_of_eq M.card_names)

theorem notMem_allAtomic_of_mem_visited (h : name ∈ M.visited build index) :
    name ∉ M.allAtomic index :=
  (adds_visited M build index).avoids name h (Finset.notMem_empty name)

theorem mem_visited_of_isNonAtomic (hF : F ∈ M.functions)
    (hnonatomic : build.isNonAtomic index F.name = true) (hatomic : F.name ∉ M.allAtomic index) :
    F.name ∈ M.visited build index :=
  ((adds_visited M build index).roots F.name (List.mem_filter.mpr
    ⟨List.mem_map_of_mem hF, hnonatomic⟩)).resolve_right hatomic

theorem map_name_instrument (M : IrModule ι) (V : Finset String) :
    (M.instrument V).functions.map IrFunction.name = M.functions.map IrFunction.name := by
  show (M.functions.map _).map _ = _
  rw [List.map_map]
  exact List.map_congr_left fun F _ => F.name_instrumentIn V

theorem callees_instrument (hname : name ∉ V) : (M.instrument V).callees name = M.callees name := by
  rw [callees, callees, getFunction_instrument]
  cases hF : M.getFunction name with
  | none => rfl
  | some F =>
    have hF' := (mem_of_getFunction hF).2
    rw [Option.map_some, IrFunction.instrumentIn_of_notMem (hF' ▸ hname)]
    exact definedCallees_instrument M V F

theorem yieldCallees_instrument (hname : name ∈ V) :
    (M.instrument V).yieldCallees build name = M.yieldCallees build name := by
  rw [yieldCallees, yieldCallees, getFunction_instrument]
  cases hF : M.getFunction name with
  | none => rfl
  | some F =>
    have hF' := (mem_of_getFunction hF).2
    rw [Option.map_some, IrFunction.instrumentIn_of_mem (hF' ▸ hname)]
    simp only [Option.elim_some, definedCallees_instrument, IrFunction.instrument_instrument]

theorem mem_instrument_iff : F ∈ (M.instrument V).functions ↔
    ∃ G ∈ M.functions, G.instrumentIn V = F := List.mem_map

/-- Instrumenting functions that are not atomic does not change what is atomic. -/
theorem allAtomic_instrument (hV : ∀ a ∈ V, a ∉ M.allAtomic index) :
    (M.instrument V).allAtomic index = M.allAtomic index := by
  have hsame (a : String) (ha : a ∈ M.allAtomic index) :
      (M.instrument V).callees a = M.callees a := callees_instrument fun hmem => hV a hmem ha
  have hsub : ∀ a ∈ (M.instrument V).allAtomic index, a ∈ M.allAtomic index := by
    refine forall_mem_allAtomic (fun a ha b hb => ?_) fun F hF hatomic => ?_
    · rw [hsame a ha] at hb
      exact (closedBut_allAtomic M index a ha b hb).resolve_right (Finset.notMem_empty _)
    · obtain ⟨G, hG, rfl⟩ := mem_instrument_iff.mp hF
      rw [IrFunction.name_instrumentIn] at hatomic ⊢
      exact mem_allAtomic_of_isAtomic hG hatomic
  have hsub' : ∀ a ∈ M.allAtomic index,
      a ∈ M.allAtomic index ∧ a ∈ (M.instrument V).allAtomic index := by
    refine forall_mem_allAtomic (fun a ha b hb => ⟨?_, ?_⟩) fun F hF hatomic => ⟨?_, ?_⟩
    · exact (closedBut_allAtomic M index a ha.1 b hb).resolve_right (Finset.notMem_empty _)
    · rw [← hsame a ha.1] at hb
      exact (closedBut_allAtomic _ index a ha.2 b hb).resolve_right (Finset.notMem_empty _)
    · exact mem_allAtomic_of_isAtomic hF hatomic
    · have hmem : F.instrumentIn V ∈ (M.instrument V).functions :=
        mem_instrument_iff.mpr ⟨F, hF, rfl⟩
      have hname := F.name_instrumentIn V
      exact hname ▸ mem_allAtomic_of_isAtomic hmem (hname.symm ▸ hatomic)
  exact Finset.ext fun a => ⟨hsub a, fun ha => (hsub' a ha).2⟩

theorem visited_instrument_subset (M : IrModule ι) (build : Build) (index : FunIndex) :
    ∀ a ∈ (M.instrument (M.visited build index)).visited build index,
      a ∈ M.visited build index := by
  have hatomic : (M.instrument (M.visited build index)).allAtomic index = M.allAtomic index :=
    allAtomic_instrument fun a ha => notMem_allAtomic_of_mem_visited ha
  rw [visited, hatomic, map_name_instrument]
  refine Marking.forall_mem_markAll (fun a ha b hb => ?_) _ (adds_visited M build index).roots
  rw [yieldCallees_instrument ha] at hb
  exact (adds_visited M build index).closed a ha (Finset.notMem_empty a) b hb

theorem instrument_instrument {V' : Finset String} (h : ∀ a ∈ V', a ∈ V) :
    (M.instrument V).instrument V' = M.instrument V := by
  rw [IrModule.mk.injEq]
  refine (List.map_map ..).trans (List.map_congr_left fun F _ => ?_)
  dsimp only [Function.comp]
  by_cases hF : F.name ∈ V'
  · rw [IrFunction.instrumentIn_of_mem (h _ hF)]
    exact (IrFunction.instrumentIn_of_mem (F := F.instrument) hF).trans F.instrument_instrument
  · refine IrFunction.instrumentIn_of_notMem ?_
    rwa [IrFunction.name_instrumentIn]

/-! ### The whole pass -/

theorem coroYieldName_mem (M : IrModule ι) :
    coroYieldName ∈ M.getOrInsertCoroYield.functions.map IrFunction.name := by
  rw [getOrInsertCoroYield]
  split
  · assumption
  · rw [List.map_append]
    exact List.mem_append_right _ (List.mem_singleton_self _)

theorem getOrInsertCoroYield_of_mem (h : coroYieldName ∈ M.functions.map IrFunction.name) :
    M.getOrInsertCoroYield = M := dif_pos h

theorem yieldsInserted_instrument (V : Finset String) (F : IrFunction ι) :
    List.Forall₂ (fun B B' : BasicBlock ι => YieldsInserted B.instructions B'.instructions)
      F.blocks (F.instrumentIn V).blocks := by
  rw [IrFunction.instrumentIn]
  split
  · show List.Forall₂ _ F.blocks (F.blocks.map BasicBlock.instrument)
    rw [List.forall₂_map_right_iff]
    exact List.forall₂_same.mpr fun B _ => yieldsInserted_insertInto B.instructions
  · exact List.forall₂_same.mpr fun B _ => .refl B.instructions

/-- Without recursion the pass visits annotated functions only. -/
theorem isNonAtomic_of_mem_visited (hbuild : build.recursiveYields = false) :
    ∀ a ∈ M.visited build index, build.isNonAtomic index a = true := by
  refine Marking.forall_mem_markAll (fun a _ b hb => ?_) _ fun a ha => ?_
  · rw [yieldCallees, hbuild] at hb
    cases hb
  · exact .inl (List.mem_filter.mp ha).2

/-- **The pass instruments exactly the right places.** If the annotated functions have bodies, the
pass has a result, and a second pass does not change it. What the pass changed are yields that it
inserted. In an annotated function that may not run atomically each access to memory is followed by
a yield. Functions that may run atomically are not changed, and in the default build neither are
functions without annotation. -/
theorem run_exact (M : IrModule ι) (build : Build) (index : FunIndex)
    (hbodies : ∀ F ∈ M.getOrInsertCoroYield.functions,
      build.isNonAtomic index F.name = true → F.blocks ≠ []) :
    ∃ M', M.pass build index = some M' ∧ M'.pass build index = some M' ∧
      List.Forall₂ (fun F F' : IrFunction ι => F'.name = F.name ∧
          List.Forall₂ (fun B B' : BasicBlock ι => YieldsInserted B.instructions B'.instructions)
            F.blocks F'.blocks)
        M.getOrInsertCoroYield.functions M'.functions ∧
      (∀ F' ∈ M'.functions, hasAttribute index F'.name nonatomicAttr = true →
        ¬ M.getOrInsertCoroYield.MayRunAtomically index F'.name →
        ∀ B ∈ F'.blocks, Interrupted B.instructions) ∧
      (∀ F ∈ M.getOrInsertCoroYield.functions,
        M.getOrInsertCoroYield.MayRunAtomically index F.name → F ∈ M'.functions) ∧
      (build = {} → ∀ F ∈ M.getOrInsertCoroYield.functions,
        hasAttribute index F.name nonatomicAttr = false → F ∈ M'.functions) := by
  have hdecl (F : IrFunction ι) : F.isDeclaration = false ↔ F.blocks ≠ [] := by
    simp [IrFunction.isDeclaration]
  have hcoroYield := M.coroYieldName_mem
  rw [pass]
  generalize M.getOrInsertCoroYield = M at *
  have hunchanged (F : IrFunction ι) (hF : F ∈ M.functions)
      (hnot : F.name ∉ M.visited build index) :
      F ∈ (M.instrument (M.visited build index)).functions :=
    mem_instrument_iff.mpr ⟨F, hF, IrFunction.instrumentIn_of_notMem hnot⟩
  refine ⟨M.instrument (M.visited build index),
    run_eq fun F hF hnonatomic => (hdecl F).mpr (hbodies F hF hnonatomic), ?_, ?_, ?_, ?_, ?_⟩
  · -- the second pass visits functions that the first one has instrumented
    rw [pass, getOrInsertCoroYield_of_mem (by rwa [map_name_instrument]), run_eq ?_,
      instrument_instrument (M.visited_instrument_subset build index)]
    intro F hF hnonatomic
    obtain ⟨G, hG, rfl⟩ := mem_instrument_iff.mp hF
    rw [IrFunction.name_instrumentIn] at hnonatomic
    rw [IrFunction.isDeclaration_instrumentIn]
    exact (hdecl G).mpr (hbodies G hG hnonatomic)
  · show List.Forall₂ _ M.functions (M.functions.map _)
    rw [List.forall₂_map_right_iff]
    refine List.forall₂_same.mpr fun F _ => ?_
    exact ⟨F.name_instrumentIn _, yieldsInserted_instrument _ F⟩
  · intro F' hF' hnonatomic hatomic B hB
    obtain ⟨F, hF, rfl⟩ := mem_instrument_iff.mp hF'
    rw [IrFunction.name_instrumentIn] at hnonatomic hatomic
    have hvisited : F.name ∈ M.visited build index := by
      refine mem_visited_of_isNonAtomic hF ?_ (mt mem_allAtomic_iff.mp hatomic)
      rw [Build.isNonAtomic, hnonatomic, Bool.or_true]
    rw [IrFunction.instrumentIn_of_mem hvisited] at hB
    obtain ⟨B, -, rfl⟩ := List.mem_map.mp hB
    exact interrupted_insertInto B.instructions
  · intro F hF hatomic
    exact hunchanged F hF fun hvisited =>
      notMem_allAtomic_of_mem_visited hvisited (mem_allAtomic_iff.mpr hatomic)
  · rintro rfl F hF hnone
    refine hunchanged F hF fun hvisited => ?_
    have hnonatomic := isNonAtomic_of_mem_visited (by rfl) _ hvisited
    rw [Build.isNonAtomic, hnone] at hnonatomic
    cases hnonatomic

/-- A function that loads and stores, and an atomic one that calls a third. -/
def threeFunctions : IrModule Unit :=
  ⟨[⟨"inc", [⟨[⟨.load, none⟩, ⟨.store, none⟩, ⟨.other, none⟩], by decide⟩]⟩,
    ⟨"twice", [⟨[⟨.call (some "add"), none⟩, ⟨.other, none⟩], by decide⟩]⟩,
    ⟨"add", [⟨[⟨.load, none⟩, ⟨.other, none⟩], by decide⟩]⟩], by decide⟩

/-- The accesses of `inc` are followed by yields. `add` is not changed: it is called by an atomic
function. -/
theorem run_exact_threeFunctions :
    ∃ M', threeFunctions.pass {} {(nonatomicAttr, "inc"), (nonatomicAttr, "add"),
        (atomicAttr, "twice")} = some M' ∧
      M'.pass {} {(nonatomicAttr, "inc"), (nonatomicAttr, "add"), (atomicAttr, "twice")} =
        some M' ∧
      (∀ F ∈ M'.functions, F.name = "inc" → ∀ B ∈ F.blocks, Interrupted B.instructions) ∧
      ⟨"add", [⟨[⟨.load, none⟩, ⟨.other, none⟩], by decide⟩]⟩ ∈ M'.functions := by
  obtain ⟨M', hpass, hpass', -, hinc, hadd, -⟩ := run_exact threeFunctions {}
    {(nonatomicAttr, "inc"), (nonatomicAttr, "add"), (atomicAttr, "twice")} (by decide)
  refine ⟨M', hpass, hpass', fun F hF hname => hinc F hF ?_ ?_,
    hadd _ (by decide) (mem_allAtomic_iff.mp (by decide))⟩
  · rw [hname]
    decide
  · rw [hname, ← mem_allAtomic_iff]
    decide

end IrModule

end Codegen

end LTest
