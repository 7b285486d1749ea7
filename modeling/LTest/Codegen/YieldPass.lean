import LTest.Lib.Marking

/-!
# The pass that inserts yields

`YieldInserter` runs over a module of the compiler's intermediate language. It first collects the
functions that may run inside an atomic operation, by following direct calls, and then inserts a
call of `CoroYield` after each access to memory in the annotated functions that are not among them.

Functions are told apart by their names, as the pass does. Of an instruction the pass sees its kind
and the function it calls; the rest is a parameter of the model. A block is never empty, since the
loop over a block looks at the instruction after the current one before anything else.

The two options of the build are fields of `Build`. With `LTEST_EXTERNAL_LAUNCH` every function
counts as annotated, and with `LTEST_RECURSIVE_YIELDS` the pass goes on to the functions that an
instrumented one calls.

## Main definitions

* `IrModule`, `IrFunction`, `BasicBlock`, `Instruction` — what the pass sees of a module
* `IrModule.collectAtomic`, `IrModule.insertYields`, `IrModule.run`, `IrModule.pass` — the pass
-/

namespace LTest

namespace Codegen

/-- The kinds of instructions that the pass tells apart. A call has the result of
`getCalledFunction`, which is null for an indirect call. -/
inductive Opcode
  | load
  | store
  | atomicRMW
  | atomicCmpXchg
  | call (callee : Option String)
  | invoke (callee : Option String)
  | callBr (callee : Option String)
  | other
  deriving DecidableEq

/-- An instruction. -/
structure Instruction (ι : Type) where
  /-- The opcode. -/
  opcode : Opcode
  /-- What the pass does not look at. -/
  rest : Option ι
  deriving DecidableEq

/-- A basic block. -/
structure BasicBlock (ι : Type) where
  /-- The instructions. -/
  instructions : List (Instruction ι)
  /-- There is at least one. -/
  ne_nil : instructions ≠ []
  deriving DecidableEq

/-- A function. -/
structure IrFunction (ι : Type) where
  /-- The name. -/
  name : String
  /-- The blocks; a declaration has none. -/
  blocks : List (BasicBlock ι)
  deriving DecidableEq

/-- A module. -/
structure IrModule (ι : Type) where
  /-- The functions. -/
  functions : List (IrFunction ι)
  /-- They have different names. -/
  nodup : (functions.map IrFunction.name).Nodup
  deriving DecidableEq

/-- `FunIndex`: pairs of an annotation and the name of a function. -/
abbrev FunIndex := Finset (String × String)

/-- The options of the build. -/
structure Build where
  externalLaunch : Bool := false
  recursiveYields : Bool := false
  deriving DecidableEq

variable {ι : Type}

def nonatomicAttr : String := "ltest_nonatomic"

def atomicAttr : String := "ltest_atomic"

/-- `HasAttribute`. -/
def hasAttribute (index : FunIndex) (name attr : String) : Bool := (attr, name) ∈ index

/-- `IsNonAtomic`. -/
def Build.isNonAtomic (build : Build) (index : FunIndex) (name : String) : Bool :=
  build.externalLaunch || hasAttribute index name nonatomicAttr

/-- `IsAtomic`. -/
def isAtomic (index : FunIndex) (name : String) : Bool := hasAttribute index name atomicAttr

/-- `StringRef::contains`. -/
def contains (name part : String) : Bool := part.toList <:+: name.toList

/-- The function that a `CallBase` calls. -/
def Opcode.calledFunction : Opcode → Option String
  | .call callee | .invoke callee | .callBr callee => callee
  | _ => none

/-- `IsAtomicWrapperCall`. -/
def Instruction.isAtomicWrapperCall (insn : Instruction ι) : Bool :=
  match insn.opcode.calledFunction with
  | none => false
  | some name =>
    if !contains name "atomic" then false
    else
      contains name "load" || contains name "store" || contains name "exchange" ||
        contains name "compare_exchange" || contains name "fetch_"

/-- `NeedInterrupt`. -/
def Instruction.needInterrupt (insn : Instruction ι) : Bool :=
  match insn.opcode with
  | .load | .store | .atomicRMW | .atomicCmpXchg => true
  | _ => insn.isAtomicWrapperCall

def coroYieldName : String := "CoroYield"

/-- The call that the pass inserts. -/
def coroYield : Instruction ι := ⟨.call (some coroYieldName), none⟩

/-- `ItsYieldInst`. -/
def Instruction.itsYieldInst (insn : Instruction ι) : Bool :=
  match insn.opcode with
  | .call (some name) => name == coroYieldName
  | _ => false

/-- `Function::isDeclaration`. -/
def IrFunction.isDeclaration (F : IrFunction ι) : Bool := F.blocks.isEmpty

/-! ### Atomic functions -/

namespace IrModule

/-- The function of that name. -/
def getFunction (M : IrModule ι) (name : String) : Option (IrFunction ι) :=
  M.functions.find? (·.name = name)

/-- The function of that name has a body. -/
def isDefined (M : IrModule ι) (name : String) : Bool :=
  (M.getFunction name).any fun F => !F.isDeclaration

/-- The function with a body that a `CallInst` or an `InvokeInst` calls. -/
def definedCallee (M : IrModule ι) (insn : Instruction ι) : Option String :=
  match insn.opcode with
  | .call (some name) | .invoke (some name) => if M.isDefined name then some name else none
  | _ => none

/-- The functions with a body that a function calls, in the order of its instructions. -/
def definedCallees (M : IrModule ι) (F : IrFunction ι) : List String :=
  F.blocks.flatMap fun B => B.instructions.filterMap M.definedCallee

/-- `CollectAtomic`. -/
def collectAtomic (M : IrModule ι) : ℕ → Finset String → IrFunction ι → Finset String
  | 0, atomic, _ => atomic
  | fuel + 1, atomic, F =>
    if F.name ∈ atomic then atomic
    else
      (M.definedCallees F).foldl
        (fun atomic name => match M.getFunction name with
          | some G => M.collectAtomic fuel atomic G
          | none => atomic)
        (insert F.name atomic)

/-- The first loop of `Run`. Each call that goes on collects another function. -/
def allAtomic (M : IrModule ι) (index : FunIndex) : Finset String :=
  M.functions.foldl
    (fun atomic F => if isAtomic index F.name then M.collectAtomic M.functions.length atomic F
      else atomic) ∅

end IrModule

/-! ### Inserting yields -/

variable {names : Finset String}

/-- The loop over a block. A call is inserted before the next instruction, and the loop goes on
there; it stops at the last instruction. -/
def insertInto : List (Instruction ι) → List (Instruction ι)
  | [] => []
  | [last] => [last]
  | insn :: next :: rest =>
    if insn.needInterrupt && !next.itsYieldInst then insn :: coroYield :: insertInto (next :: rest)
    else insn :: insertInto (next :: rest)

theorem insertInto_ne_nil {l : List (Instruction ι)} (h : l ≠ []) : insertInto l ≠ [] := by
  match l with
  | [last] => exact h
  | insn :: next :: rest =>
    rw [insertInto]
    split <;> exact List.cons_ne_nil _ _

/-- The block after the loop. -/
def BasicBlock.instrument (B : BasicBlock ι) : BasicBlock ι :=
  ⟨insertInto B.instructions, insertInto_ne_nil B.ne_nil⟩

/-- The loop over the blocks of a function. -/
def IrFunction.instrument (F : IrFunction ι) : IrFunction ι :=
  { F with blocks := F.blocks.map BasicBlock.instrument }

/-- The function, instrumented if it has one of the names. -/
def IrFunction.instrumentIn (names : Finset String) (F : IrFunction ι) : IrFunction ι :=
  if F.name ∈ names then F.instrument else F

theorem IrFunction.instrumentIn_of_mem {F : IrFunction ι} (h : F.name ∈ names) :
    F.instrumentIn names = F.instrument := if_pos h

theorem IrFunction.instrumentIn_of_notMem {F : IrFunction ι} (h : F.name ∉ names) :
    F.instrumentIn names = F := if_neg h

theorem IrFunction.name_instrumentIn (names : Finset String) (F : IrFunction ι) :
    (F.instrumentIn names).name = F.name := by
  rw [instrumentIn]
  split <;> rfl

theorem IrFunction.isDeclaration_instrumentIn (names : Finset String) (F : IrFunction ι) :
    (F.instrumentIn names).isDeclaration = F.isDeclaration := by
  rw [instrumentIn]
  split
  · simp [isDeclaration, instrument]
  · rfl

namespace IrModule

/-- The module with the functions of these names instrumented. -/
def instrument (M : IrModule ι) (names : Finset String) : IrModule ι :=
  ⟨M.functions.map (IrFunction.instrumentIn names), by
    rw [List.map_map, show IrFunction.name ∘ IrFunction.instrumentIn (ι := ι) names =
      IrFunction.name from funext (IrFunction.name_instrumentIn names)]
    exact M.nodup⟩

/-- `InsertYields`. The builder is placed at the first block, which a declaration does not have. -/
def insertYields (build : Build) (atomic : Finset String) :
    ℕ → Finset String × IrModule ι → String → Option (Finset String × IrModule ι)
  | 0, s, _ => some s
  | fuel + 1, (visited, M), name =>
    if name ∈ visited ∨ name ∈ atomic then some (visited, M)
    else
      match M.getFunction name with
      | none => none
      | some F =>
        if F.isDeclaration then none
        else
          let visited := insert name visited
          let M := M.instrument {name}
          if build.recursiveYields then
            (M.definedCallees F.instrument).foldlM (insertYields build atomic fuel) (visited, M)
          else some (visited, M)

/-- The constructor of `YieldInserter`: `CoroYield` is declared if the module does not have it. -/
def getOrInsertCoroYield (M : IrModule ι) : IrModule ι :=
  if h : coroYieldName ∈ M.functions.map IrFunction.name then M
  else
    ⟨M.functions ++ [⟨coroYieldName, []⟩], by
      rw [List.map_append, List.nodup_append]
      refine ⟨M.nodup, List.nodup_singleton _, ?_⟩
      rintro a ha b hb rfl
      have heq : a = coroYieldName := List.mem_singleton.mp hb
      exact h (heq ▸ ha)⟩

/-- `Run`, after the constructor. -/
def run (M : IrModule ι) (build : Build) (index : FunIndex) : Option (IrModule ι) := do
  let atomic := M.allAtomic index
  let roots := (M.functions.map IrFunction.name).filter (build.isNonAtomic index)
  let (_, M') ← roots.foldlM (insertYields build atomic M.functions.length) (∅, M)
  return M'

/-- `YieldInsertPass::run`, for an index of the annotations. -/
def pass (M : IrModule ι) (build : Build) (index : FunIndex) : Option (IrModule ι) :=
  M.getOrInsertCoroYield.run build index

/-! ### Looking up functions -/

variable {M : IrModule ι} {F : IrFunction ι} {name : String} {names : Finset String}

theorem mem_of_getFunction (h : M.getFunction name = some F) : F ∈ M.functions ∧ F.name = name := by
  refine ⟨List.mem_of_find?_eq_some h, ?_⟩
  simpa using List.find?_some h

theorem getFunction_of_mem (h : F ∈ M.functions) : M.getFunction F.name = some F := by
  cases hfind : M.getFunction F.name with
  | none =>
    have hnone := List.find?_eq_none.mp hfind F h
    simp at hnone
  | some G =>
    obtain ⟨hG, hname⟩ := mem_of_getFunction hfind
    rw [List.inj_on_of_nodup_map M.nodup hG h hname]

theorem getFunction_instrument (M : IrModule ι) (names : Finset String) (name : String) :
    (M.instrument names).getFunction name =
      (M.getFunction name).map (IrFunction.instrumentIn names) := by
  rw [getFunction, getFunction]
  show (M.functions.map _).find? _ = _
  rw [List.find?_map]
  congr 2
  funext F
  dsimp only [Function.comp]
  rw [IrFunction.name_instrumentIn]

theorem isDefined_instrument (M : IrModule ι) (names : Finset String) (name : String) :
    (M.instrument names).isDefined name = M.isDefined name := by
  rw [isDefined, isDefined, getFunction_instrument]
  cases M.getFunction name with
  | none => rfl
  | some F =>
    rw [Option.map_some, Option.any_some, Option.any_some, IrFunction.isDeclaration_instrumentIn]

theorem definedCallees_instrument (M : IrModule ι) (names : Finset String) (F : IrFunction ι) :
    (M.instrument names).definedCallees F = M.definedCallees F := by
  have hcallee : (M.instrument names).definedCallee = M.definedCallee := by
    funext insn
    rw [definedCallee, definedCallee]
    simp only [isDefined_instrument]
  rw [definedCallees, definedCallees, hcallee]

theorem definedCallee_eq_some {insn : Instruction ι} : M.definedCallee insn = some name ↔
    (insn.opcode = .call (some name) ∨ insn.opcode = .invoke (some name)) ∧
      M.isDefined name = true := by
  rw [definedCallee]
  split
  · rename_i callee hopcode
    simp only [hopcode, Option.ite_none_right_eq_some, Option.some.injEq, Opcode.call.injEq,
      reduceCtorEq, or_false]
    constructor
    · rintro ⟨h, rfl⟩
      exact ⟨rfl, h⟩
    · rintro ⟨rfl, h⟩
      exact ⟨h, rfl⟩
  · rename_i callee hopcode
    simp only [hopcode, Option.ite_none_right_eq_some, Option.some.injEq, Opcode.invoke.injEq,
      reduceCtorEq, false_or]
    constructor
    · rintro ⟨h, rfl⟩
      exact ⟨rfl, h⟩
    · rintro ⟨rfl, h⟩
      exact ⟨h, rfl⟩
  · rename_i hcall hinvoke
    refine ⟨nofun, ?_⟩
    rintro ⟨h | h, -⟩
    · exact absurd h (hcall name)
    · exact absurd h (hinvoke name)

theorem isDefined_of_mem_definedCallees (h : name ∈ M.definedCallees F) :
    M.isDefined name = true := by
  obtain ⟨B, -, hB⟩ := List.mem_flatMap.mp h
  obtain ⟨insn, -, hinsn⟩ := List.mem_filterMap.mp hB
  exact (definedCallee_eq_some.mp hinsn).2

theorem instrument_insert (hname : name ∉ names) :
    (M.instrument names).instrument {name} = M.instrument (insert name names) := by
  rw [IrModule.mk.injEq]
  show (M.functions.map _).map _ = M.functions.map _
  rw [List.map_map]
  refine List.map_congr_left fun F _ => ?_
  dsimp only [Function.comp]
  by_cases hF : F.name ∈ names
  · rw [IrFunction.instrumentIn_of_mem hF,
      IrFunction.instrumentIn_of_mem (Finset.mem_insert_of_mem hF)]
    refine IrFunction.instrumentIn_of_notMem fun heq => hname ?_
    exact Finset.mem_singleton.mp heq ▸ hF
  · rw [IrFunction.instrumentIn_of_notMem hF, IrFunction.instrumentIn, IrFunction.instrumentIn]
    simp only [Finset.mem_singleton, Finset.mem_insert, hF, or_false]

/-! ### The pass as a search -/

/-- The calls that `CollectAtomic` follows. -/
def callees (M : IrModule ι) (name : String) : List String :=
  (M.getFunction name).elim [] M.definedCallees

/-- The calls that `InsertYields` follows. -/
def yieldCallees (M : IrModule ι) (build : Build) (name : String) : List String :=
  if build.recursiveYields then
    (M.getFunction name).elim [] fun F => M.definedCallees F.instrument
  else []

theorem exists_of_isDefined (h : M.isDefined name = true) :
    ∃ F, M.getFunction name = some F ∧ F.name = name ∧ F.isDeclaration = false := by
  cases hF : M.getFunction name with
  | none =>
    rw [isDefined, hF] at h
    cases h
  | some F =>
    rw [isDefined, hF, Option.any_some, Bool.not_eq_true'] at h
    exact ⟨F, rfl, (mem_of_getFunction hF).2, h⟩

theorem collectAtomic_eq (hF : M.getFunction F.name = some F) (fuel : ℕ) (atomic : Finset String) :
    M.collectAtomic fuel atomic F = Marking.mark M.callees ∅ fuel atomic F.name := by
  induction fuel generalizing atomic F with
  | zero => rfl
  | succ fuel ih =>
    rw [collectAtomic, Marking.mark]
    by_cases hmem : F.name ∈ atomic
    · rw [if_pos hmem, if_pos (.inl hmem)]
    · have hcallees : M.callees F.name = M.definedCallees F := by
        rw [callees, hF]
        rfl
      rw [if_neg hmem, if_neg (by simpa using hmem), hcallees]
      refine List.foldl_ext _ _ _ fun atomic name hname => ?_
      obtain ⟨G, hG, rfl, -⟩ := exists_of_isDefined (isDefined_of_mem_definedCallees hname)
      rw [hG]
      exact ih hG atomic

/-- The first loop of `Run` is a search from the annotated functions. -/
theorem allAtomic_eq (M : IrModule ι) (index : FunIndex) :
    M.allAtomic index = Marking.markAll M.callees ∅ M.functions.length
      ((M.functions.map IrFunction.name).filter (isAtomic index)) ∅ := by
  rw [allAtomic, Marking.markAll, List.foldl_filter, List.foldl_map]
  refine List.foldl_ext _ _ _ fun atomic F hF => ?_
  split
  · exact collectAtomic_eq (getFunction_of_mem hF) _ _
  · rfl

/-- A loop that instruments what it visits. -/
theorem foldlM_visit {f : Finset String × IrModule ι → String → Option (Finset String × IrModule ι)}
    {g : Finset String → String → Finset String} (roots : List String)
    (hf : ∀ visited, ∀ name ∈ roots,
      f (visited, M.instrument visited) name = some (g visited name, M.instrument (g visited name)))
    (visited : Finset String) :
    roots.foldlM f (visited, M.instrument visited) =
      some (roots.foldl g visited, M.instrument (roots.foldl g visited)) := by
  induction roots generalizing visited with
  | nil => rfl
  | cons name roots ih =>
    rw [List.foldlM_cons, hf visited name List.mem_cons_self]
    exact ih (fun visited name hname => hf visited name (List.mem_cons_of_mem _ hname)) _

/-- `InsertYields` instruments the functions it visits. -/
theorem insertYields_eq (hname : M.isDefined name = true) (build : Build) (atomic : Finset String)
    (fuel : ℕ) (visited : Finset String) :
    insertYields build atomic fuel (visited, M.instrument visited) name =
      some (Marking.mark (M.yieldCallees build) atomic fuel visited name,
        M.instrument (Marking.mark (M.yieldCallees build) atomic fuel visited name)) := by
  induction fuel generalizing visited name with
  | zero => rfl
  | succ fuel ih =>
    rw [insertYields, Marking.mark]
    split
    · rfl
    · rename_i hnew
      rw [not_or] at hnew
      obtain ⟨F, hF, rfl, hdecl⟩ := exists_of_isDefined hname
      rw [getFunction_instrument, hF, Option.map_some, IrFunction.instrumentIn_of_notMem hnew.1]
      dsimp only
      rw [hdecl, if_neg Bool.false_ne_true, instrument_insert hnew.1, definedCallees_instrument,
        yieldCallees, hF]
      split
      · exact foldlM_visit _ (fun visited name hname =>
          ih (isDefined_of_mem_definedCallees hname) visited) _
      · rfl

/-- The functions that the pass instruments. -/
def visited (M : IrModule ι) (build : Build) (index : FunIndex) : Finset String :=
  Marking.markAll (M.yieldCallees build) (M.allAtomic index) M.functions.length
    ((M.functions.map IrFunction.name).filter (build.isNonAtomic index)) ∅

theorem instrument_empty (M : IrModule ι) : M.instrument ∅ = M := by
  rw [IrModule.mk.injEq]
  refine (List.map_congr_left fun F _ => ?_).trans (List.map_id _)
  exact IrFunction.instrumentIn_of_notMem (Finset.notMem_empty _)

theorem run_eq {build : Build} {index : FunIndex}
    (hbodies : ∀ F ∈ M.functions, build.isNonAtomic index F.name = true → F.isDeclaration = false) :
    M.run build index = some (M.instrument (M.visited build index)) := by
  have hloop := foldlM_visit (M := M)
    ((M.functions.map IrFunction.name).filter (build.isNonAtomic index))
    (fun visited name hname => by
      obtain ⟨hmem, hnonatomic⟩ := List.mem_filter.mp hname
      obtain ⟨F, hF, rfl⟩ := List.mem_map.mp hmem
      have hdefined : M.isDefined F.name = true := by
        rw [isDefined, getFunction_of_mem hF, Option.any_some, hbodies F hF hnonatomic]
        rfl
      exact insertYields_eq hdefined build (M.allAtomic index) M.functions.length visited) ∅
  rw [instrument_empty] at hloop
  rw [run, hloop]
  rfl

end IrModule

end Codegen

end LTest
