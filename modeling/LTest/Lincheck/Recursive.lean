import LTest.Lincheck.History

/-!
# The recursive checker

`LinearizabilityCheckerRecursive` instantiates the search with an adapter that applies
specification methods and compares their results. It forces every pending invoke to be linearized;
since methods are total, pending operations can always be appended to a linearization, and the
checker is exact.

## Main definitions

* `buildRecursiveHistoryEventInfo`, `recursiveAdapter`, `checkRecursive` — the checker

## Main results

* `checkRecursive_exact` — it returns `true` if and only if the history is linearizable
-/

namespace LTest

namespace Lincheck

open Matching

/-! ### The checker -/

/-- `RecursiveHistoryEventInfo`. -/
structure RecursiveHistoryEventInfo (Args Val : Type) where
  isInvoke : Bool
  isResponse : Bool
  name : String
  args : Args
  responseIndex : Option ℕ
  result : Option Val

variable {S Args Val : Type}

/-- A response is looked up in `invoke_by_task`, and in `invoke_by_op_id` if it is not there. -/
def HistoryEvent.mark : HistoryEvent Args Val → Mark ℕ ℤ
  | .invoke task => .opening task.coro.address task.coro.id
  | .response task _ => .closing task.coro.address task.coro.id

/-- The entry of an event, with the response index it gets. -/
def HistoryEvent.info (event : HistoryEvent Args Val) (responseIndex : Option ℕ) :
    RecursiveHistoryEventInfo Args Val :=
  match event with
  | .invoke task => ⟨true, false, task.coro.name, task.coro.args, responseIndex, none⟩
  | .response task result =>
    ⟨false, true, task.coro.name, task.coro.args, responseIndex, some result⟩

/-- `BuildRecursiveHistoryEventInfo`. -/
def buildRecursiveHistoryEventInfo (history : List (HistoryEvent Args Val)) :
    List (RecursiveHistoryEventInfo Args Val) :=
  List.zipWith HistoryEvent.info history (closings (history.map HistoryEvent.mark))

/-- The methods of the invokes, `method_by_event`. -/
def recursiveMethods (methods : MethodMap S Args Val)
    (events : List (RecursiveHistoryEventInfo Args Val)) :
    Except String (List (Option (Method S Args Val))) :=
  methodByEvent "No method in spec for: " methods (·.isInvoke) (·.name) events

variable [BEq Val]

/-- The result of an invoke is the one its response carries, if it has a response. -/
def matchesResponse (events : List (RecursiveHistoryEventInfo Args Val))
    (responseIndex : Option ℕ) (expected : Val) : Bool :=
  match responseIndex with
  | none => true
  | some r => ((events[r]?.bind (·.result)).map (expected == ·)).getD false

/-- `Adapter` of the recursive checker. -/
def recursiveAdapter (events : List (RecursiveHistoryEventInfo Args Val))
    (methodByEvent : List (Option (Method S Args Val))) : Adapter S where
  isInvoke i := (events[i]?.map (·.isInvoke)).getD false
  isResponse i := (events[i]?.map (·.isResponse)).getD false
  responseIndex i := events[i]?.bind (·.responseIndex)
  tryApply i state :=
    match events[i]?, methodByEvent[i]? with
    | some event, some (some method) =>
      let r := method state event.args
      if matchesResponse events event.responseIndex r.1 then some r.2 else none
    | _, _ => none

/-- `LinearizabilityCheckerRecursive::Check`. -/
def checkRecursive (methods : MethodMap S Args Val) (policy : CachePolicy S) (firstState : S)
    (history : List (HistoryEvent Args Val)) : Except String (Option Bool) := do
  let events := buildRecursiveHistoryEventInfo history
  let methodByEvent ← recursiveMethods methods events
  return search policy history.length firstState (recursiveAdapter events methodByEvent)
    fun _ => true

/-! ### What the adapter sees -/

section Adapter

variable {methods : MethodMap S Args Val} {history : List (HistoryEvent Args Val)}

omit [BEq Val] in
theorem opensAt_mark {k i : ℕ} : OpensAt (history.map HistoryEvent.mark) k i ↔
    ∃ t, InvokesAt history i t ∧ t.coro.address = k := by
  rw [opensAt_map]
  constructor
  · rintro ⟨event, hevent, ho⟩
    cases event with
    | invoke t => exact ⟨t, hevent, ho⟩
    | response t v => exact ho.elim
  · exact fun ⟨t, ht, hk⟩ => ⟨_, ht, hk⟩

omit [BEq Val] in
theorem closesAt_mark {k r : ℕ} : ClosesAt (history.map HistoryEvent.mark) k r ↔
    ∃ t v, RespondsAt history r t v ∧ t.coro.address = k := by
  rw [closesAt_map]
  constructor
  · rintro ⟨event, hevent, hc⟩
    cases event with
    | invoke t => exact hc.elim
    | response t v => exact ⟨t, v, hevent, hc⟩
  · exact fun ⟨t, v, ht, hk⟩ => ⟨_, ht, hk⟩

omit [BEq Val] in
theorem WellFormed.wellMatched (h : WellFormed methods history) :
    WellMatched (history.map HistoryEvent.mark) where
  opened_once k i j hi hj := by
    obtain ⟨t, ht, htk⟩ := opensAt_mark.mp hi
    obtain ⟨u, hu, huk⟩ := opensAt_mark.mp hj
    exact h.invoked_once i j t u ht hu (htk.trans huk.symm)
  closed_once k r q hr hq := by
    obtain ⟨t, v, ht, htk⟩ := closesAt_mark.mp hr
    obtain ⟨u, w, hu, huk⟩ := closesAt_mark.mp hq
    exact h.answered_once r q t u v w ht hu (htk.trans huk.symm)
  opened k r hr := by
    obtain ⟨u, v, hu, huk⟩ := closesAt_mark.mp hr
    obtain ⟨i, hir, t, ht, htu⟩ := h.answered_after r u v hu
    exact ⟨i, hir, opensAt_mark.mpr ⟨t, ht, htu.trans huk⟩⟩

omit [BEq Val] in
theorem getElem?_buildRecursiveHistoryEventInfo (history : List (HistoryEvent Args Val)) (i : ℕ) :
    (buildRecursiveHistoryEventInfo history)[i]? = history[i]?.map fun event =>
      event.info ((closings (history.map HistoryEvent.mark)).getD i none) :=
  getElem?_zipWith_closings ..

/-- The events of a history as the checker sees them. -/
theorem readsMarks_recursiveAdapter (history : List (HistoryEvent Args Val))
    (methodByEvent : List (Option (Method S Args Val))) :
    ReadsMarks (recursiveAdapter (buildRecursiveHistoryEventInfo history) methodByEvent)
      (history.map HistoryEvent.mark) where
  isInvoke i hi := by
    have hi : i < history.length := by simpa using hi
    simp only [recursiveAdapter, getElem?_buildRecursiveHistoryEventInfo, opensAt_mark,
      InvokesAt, List.getElem?_eq_getElem hi]
    cases history[i] <;> simp [HistoryEvent.info]
  isResponse i hi := by
    have hi : i < history.length := by simpa using hi
    simp only [recursiveAdapter, getElem?_buildRecursiveHistoryEventInfo, closesAt_mark,
      RespondsAt, List.getElem?_eq_getElem hi]
    cases history[i] <;> simp [HistoryEvent.info]
  responseIndex i hi := by
    have hi : i < history.length := by simpa using hi
    simp only [recursiveAdapter, getElem?_buildRecursiveHistoryEventInfo,
      List.getElem?_eq_getElem hi]
    cases history[i] <;> rfl

theorem WellFormed.responseIndex_iff (h : WellFormed methods history)
    (methodByEvent : List (Option (Method S Args Val))) {i : ℕ} (hi : i < history.length) (r : ℕ) :
    (recursiveAdapter (buildRecursiveHistoryEventInfo history) methodByEvent).responseIndex i =
      some r ↔ ∃ v, Answers history i r v := by
  rw [(readsMarks_recursiveAdapter history methodByEvent).responseIndex i (by simpa using hi),
    getD_closings h.wellMatched]
  constructor
  · rintro ⟨k, ho, hc⟩
    obtain ⟨t, ht, htk⟩ := opensAt_mark.mp ho
    obtain ⟨u, v, hu, huk⟩ := closesAt_mark.mp hc
    exact ⟨v, t, u, ht, hu, huk.trans htk.symm⟩
  · rintro ⟨v, t, u, ht, hu, hut⟩
    exact ⟨t.coro.address, opensAt_mark.mpr ⟨t, ht, rfl⟩, closesAt_mark.mpr ⟨u, v, hu, hut⟩⟩

omit [BEq Val] in
theorem Answers.unique (h : WellFormed methods history) {i r q : ℕ} {v w : Val}
    (hr : Answers history i r v) (hq : Answers history i q w) : r = q ∧ v = w := by
  obtain ⟨t, u, ht, hu, hut⟩ := hr
  obtain ⟨t', u', ht', hu', hut'⟩ := hq
  obtain rfl : t = t' := by
    have := Option.some.inj (ht.symm.trans ht')
    exact HistoryEvent.invoke.inj this
  obtain rfl := h.answered_once r q u u' v w hu hu' (hut.trans hut'.symm)
  have := Option.some.inj (hu.symm.trans hu')
  exact ⟨rfl, (HistoryEvent.response.inj this).2⟩

/-- The methods the checker finds for a well-formed history. -/
def methodsOf (methods : MethodMap S Args Val) (history : List (HistoryEvent Args Val)) :
    List (Option (Method S Args Val)) :=
  history.map fun event =>
    match event with
    | .invoke task => methods task.coro.name
    | .response _ _ => none

omit [BEq Val] in
theorem WellFormed.recursiveMethods_eq (h : WellFormed methods history) :
    recursiveMethods methods (buildRecursiveHistoryEventInfo history) =
      .ok (methodsOf methods history) := by
  rw [recursiveMethods, methodByEvent_eq_ok]
  · refine congrArg Except.ok (List.ext_getElem? fun i => ?_)
    rw [List.getElem?_map, getElem?_buildRecursiveHistoryEventInfo, methodsOf, List.getElem?_map,
      Option.map_map]
    cases history[i]? with
    | none => rfl
    | some event => cases event <;> rfl
  · intro event hmem hinv
    obtain ⟨i, hi⟩ := List.mem_iff_getElem?.mp hmem
    rw [getElem?_buildRecursiveHistoryEventInfo] at hi
    obtain ⟨e, he, rfl⟩ := Option.map_eq_some_iff.mp hi
    cases e with
    | invoke t => exact h.named i t he
    | response t v => exact Bool.noConfusion hinv

/-- Applying an invoke: its result is the one of its response. -/
theorem WellFormed.tryApply_iff (h : WellFormed methods history) {i : ℕ} {t : Task Args Val}
    (ht : InvokesAt history i t) {method : Method S Args Val}
    (hmethod : methods t.coro.name = some method) {s s' : S} :
    (recursiveAdapter (buildRecursiveHistoryEventInfo history)
        (methodsOf methods history)).tryApply i s = some s' ↔
      s' = (method s t.coro.args).2 ∧
        ∀ r v, Answers history i r v → ((method s t.coro.args).1 == v) = true := by
  have hi : i < history.length := (List.getElem?_eq_some_iff.mp ht).1
  have hresp := h.responseIndex_iff (methodsOf methods history) hi
  have hevent : (buildRecursiveHistoryEventInfo history)[i]? = some (HistoryEvent.info (.invoke t)
      ((closings (history.map HistoryEvent.mark)).getD i none)) := by
    rw [getElem?_buildRecursiveHistoryEventInfo, show history[i]? = _ from ht]
    rfl
  have hmethod' : (methodsOf methods history)[i]? = some (some method) := by
    rw [methodsOf, List.getElem?_map, show history[i]? = _ from ht]
    exact congrArg some hmethod
  simp only [recursiveAdapter, hevent, Option.bind_some, HistoryEvent.info] at hresp
  simp only [recursiveAdapter, hevent, hmethod', HistoryEvent.info]
  -- the comparison with the response is the one of the specification
  have hmatch : ∀ res : Val, matchesResponse (buildRecursiveHistoryEventInfo history)
      ((closings (history.map HistoryEvent.mark)).getD i none) res = true ↔
      ∀ r v, Answers history i r v → (res == v) = true := by
    intro res
    cases hr : (closings (history.map HistoryEvent.mark)).getD i none with
    | none =>
      rw [hr] at hresp
      refine ⟨fun _ r v hans => absurd ((hresp r).mpr ⟨v, hans⟩) (by simp), fun _ => rfl⟩
    | some r =>
      obtain ⟨v, hans⟩ := (hresp r).mp hr
      have hv : (buildRecursiveHistoryEventInfo history)[r]?.bind (·.result) = some v := by
        obtain ⟨_, u, -, hu, -⟩ := hans
        rw [getElem?_buildRecursiveHistoryEventInfo, show history[r]? = _ from hu]
        rfl
      simp only [matchesResponse, hv, Option.map_some, Option.getD_some]
      constructor
      · intro hres q w hans'
        exact (hans.unique h hans').2 ▸ hres
      · exact fun hall => hall r v hans
  rw [← hmatch, Option.ite_none_right_eq_some, Option.some.injEq]
  exact and_comm.trans (and_congr_left' eq_comm)

end Adapter

/-! ### Exactness -/

section Exact

variable {methods : MethodMap S Args Val} {history : List (HistoryEvent Args Val)} {order : List ℕ}
  {s : S} {policy : CachePolicy S}

/-- The adapter of the checker for a well-formed history. -/
def historyAdapter (methods : MethodMap S Args Val) (history : List (HistoryEvent Args Val)) :
    Adapter S :=
  recursiveAdapter (buildRecursiveHistoryEventInfo history) (methodsOf methods history)

theorem WellFormed.arranged (h : WellFormed methods history) :
    Arranged (historyAdapter methods history) history.length := by
  have := (readsMarks_recursiveAdapter history (methodsOf methods history)).arranged h.wellMatched
  rwa [List.length_map] at this

theorem historyAdapter_isInvoke {i : ℕ} (hi : i < history.length) :
    (historyAdapter methods history).isInvoke i = true ↔ ∃ t, InvokesAt history i t := by
  rw [historyAdapter, (readsMarks_recursiveAdapter history _).isInvoke i (by simpa using hi)]
  simp only [opensAt_mark]
  exact ⟨fun ⟨_, t, ht, _⟩ => ⟨t, ht⟩, fun ⟨t, ht⟩ => ⟨_, t, ht, rfl⟩⟩

theorem WellFormed.precedes_iff (h : WellFormed methods history) {a b : ℕ}
    (ha : a < history.length) :
    Precedes (historyAdapter methods history) a b ↔ ∃ r v, Answers history a r v ∧ r < b :=
  Lincheck.precedes_iff fun _ => h.responseIndex_iff _ ha _

theorem tryApply_of_not_invokesAt {i : ℕ} (hi : ¬ ∃ t, InvokesAt history i t) (s : S) :
    (historyAdapter methods history).tryApply i s = none := by
  simp only [historyAdapter, recursiveAdapter, getElem?_buildRecursiveHistoryEventInfo, methodsOf,
    List.getElem?_map]
  cases hevent : history[i]? with
  | none => rfl
  | some event =>
    cases event with
    | invoke t => exact absurd ⟨t, hevent⟩ hi
    | response t v => rfl

theorem WellFormed.congruent (h : WellFormed methods history)
    (hpolicy : Respects methods policy.equal) :
    Congruent policy (historyAdapter methods history) fun _ => true where
  onComplete _ _ _ := rfl
  tryApply s t hst i := by
    by_cases hi : ∃ task, InvokesAt history i task
    · obtain ⟨task, htask⟩ := hi
      obtain ⟨method, hmethod⟩ := Option.ne_none_iff_exists'.mp (h.named i task htask)
      obtain ⟨hres, hnext⟩ := hpolicy _ method hmethod s t hst task.coro.args
      have hs : ∀ s', (historyAdapter methods history).tryApply i s = some s' ↔ _ := fun s' =>
        h.tryApply_iff htask hmethod
      have ht : ∀ t', (historyAdapter methods history).tryApply i t = some t' ↔ _ := fun t' =>
        h.tryApply_iff htask hmethod
      simp only [hres] at hs
      cases happ : (historyAdapter methods history).tryApply i s with
      | some s' =>
        obtain ⟨rfl, hall⟩ := (hs s').mp happ
        rw [(ht _).mpr ⟨rfl, hall⟩]
        exact .some hnext
      | none =>
        cases happ' : (historyAdapter methods history).tryApply i t with
        | none => exact .none
        | some t' => simp [(hs _).mpr ⟨rfl, ((ht t').mp happ').2⟩] at happ
    · rw [tryApply_of_not_invokesAt hi, tryApply_of_not_invokesAt hi]
      exact .none

/-- Running invokes with the adapter is running them with the specification. -/
theorem WellFormed.exists_runAll_iff (h : WellFormed methods history) (order : List ℕ) (s : S) :
    (∃ s', runAll (historyAdapter methods history) order s = some s') ↔
      RunsInOrder methods history order s := by
  induction order generalizing s with
  | nil => exact ⟨fun _ => trivial, fun _ => ⟨s, rfl⟩⟩
  | cons i rest ih =>
    rw [exists_runAll_cons]
    constructor
    · rintro ⟨s₁, happ, hrun⟩
      by_cases hi : ∃ t, InvokesAt history i t
      · obtain ⟨t, ht⟩ := hi
        obtain ⟨method, hmethod⟩ := Option.ne_none_iff_exists'.mp (h.named i t ht)
        obtain ⟨rfl, hall⟩ := (h.tryApply_iff ht hmethod).mp happ
        exact ⟨t, method, ht, hmethod, hall, (ih _).mp hrun⟩
      · simp [tryApply_of_not_invokesAt hi] at happ
    · rintro ⟨t, method, ht, hmethod, hall, hrest⟩
      exact ⟨_, (h.tryApply_iff ht hmethod).mpr ⟨rfl, hall⟩, (ih _).mpr hrest⟩

theorem RunsInOrder.invokesAt (h : RunsInOrder methods history order s) :
    ∀ i ∈ order, ∃ t, InvokesAt history i t := by
  induction order generalizing s with
  | nil => simp
  | cons i order ih =>
    obtain ⟨t, _, ht, -, -, hrest⟩ := h
    exact List.forall_mem_cons.mpr ⟨⟨t, ht⟩, ih hrest⟩

section

variable (h : WellFormed methods history)
include h

/-- Pending operations can be appended, since methods are total. -/
theorem WellFormed.runsInOrder_append {pending : List ℕ}
    (hpending : ∀ i ∈ pending, (∃ t, InvokesAt history i t) ∧ ∀ r v, ¬ Answers history i r v)
    (hrun : RunsInOrder methods history order s) :
    RunsInOrder methods history (order ++ pending) s := by
  induction order generalizing s with
  | nil =>
    clear hrun
    induction pending generalizing s with
    | nil => trivial
    | cons i pending ih =>
      obtain ⟨⟨t, ht⟩, hno⟩ := hpending i List.mem_cons_self
      obtain ⟨method, hmethod⟩ := Option.ne_none_iff_exists'.mp (h.named i t ht)
      exact ⟨t, method, ht, hmethod, fun r v hans => absurd hans (hno r v),
        ih fun j hj => hpending j (List.mem_cons_of_mem i hj)⟩
  | cons i order ih =>
    obtain ⟨t, method, ht, hmethod, hall, hrest⟩ := hrun
    exact ⟨t, method, ht, hmethod, hall, ih hrest⟩

/-- A linearization for the search is one of the history: the search drops nothing. -/
theorem WellFormed.linearizes {dropped : List ℕ}
    (hlin : Linearization (historyAdapter methods history) (fun _ => true) history.length
      (List.replicate history.length false) s order dropped) :
    Linearizes methods s history order := by
  obtain rfl : dropped = [] := List.eq_nil_iff_forall_not_mem.mpr fun i hi =>
    Bool.noConfusion (hlin.droppable i hi).2
  have hlt : ∀ i ∈ order, i < history.length := fun i hi =>
    ((hlin.mem i).mp (List.mem_append_left _ hi)).1
  refine ⟨by simpa using hlin.nodup, fun i r v hans => ?_, ?_, ?_⟩
  · obtain ⟨t, _, ht, -⟩ := hans
    have hi : i < history.length := (List.getElem?_eq_some_iff.mp ht).1
    simpa using (hlin.mem i).mpr ⟨hi, (historyAdapter_isInvoke hi).mpr ⟨t, ht⟩, by simp⟩
  · refine hlin.extends_precedence.imp_of_mem fun ha hb hprec hans => hprec ?_
    exact (h.precedes_iff (hlt _ hb)).mpr hans
  · obtain ⟨s', hrun, -⟩ := hlin.runs
    exact (h.exists_runAll_iff order s).mp ⟨s', hrun⟩

/-- **Forcing pending invokes loses nothing**: a linearization of the history, with the pending
operations it leaves out appended, is one for the search. -/
theorem WellFormed.exists_linearization (hlin : Linearizes methods s history order) :
    ∃ order', Linearization (historyAdapter methods history) (fun _ => true) history.length
      (List.replicate history.length false) s order' [] := by
  have hinvoke : ∀ i ∈ order, ∃ t, InvokesAt history i t := hlin.runs.invokesAt
  have hlt : ∀ {i}, (∃ t, InvokesAt history i t) → i < history.length := fun ⟨t, ht⟩ =>
    (List.getElem?_eq_some_iff.mp ht).1
  set pending := (List.range history.length).filter fun i =>
    (historyAdapter methods history).isInvoke i && !decide (i ∈ order) with hpdef
  have hpending : ∀ i, i ∈ pending ↔ (∃ t, InvokesAt history i t) ∧ i ∉ order := by
    intro i
    simp only [hpdef, List.mem_filter, List.mem_range, Bool.and_eq_true, Bool.not_eq_true',
      decide_eq_false_iff_not]
    constructor
    · rintro ⟨hi, hinv, hno⟩
      exact ⟨(historyAdapter_isInvoke hi).mp hinv, hno⟩
    · rintro ⟨hi, hno⟩
      exact ⟨hlt hi, (historyAdapter_isInvoke (hlt hi)).mpr hi, hno⟩
  have hno : ∀ i ∈ pending, ∀ r v, ¬ Answers history i r v := fun i hi r v hans =>
    ((hpending i).mp hi).2 (hlin.completed i r v hans)
  refine ⟨order ++ pending, ?_, fun i => ?_, by simp, ?_, ?_⟩
  · rw [List.append_nil]
    refine List.nodup_append.mpr ⟨hlin.nodup, (List.nodup_range ..).filter _, fun a ha b hb => ?_⟩
    rintro rfl
    exact ((hpending a).mp hb).2 ha
  · rw [List.append_nil, List.mem_append, hpending]
    constructor
    · intro hi
      have hinv := hi.elim (hinvoke i) And.left
      exact ⟨hlt hinv, (historyAdapter_isInvoke (hlt hinv)).mpr hinv, by simp⟩
    · rintro ⟨hi, hinv, -⟩
      by_cases hmem : i ∈ order
      · exact .inl hmem
      · exact .inr ⟨(historyAdapter_isInvoke hi).mp hinv, hmem⟩
  · -- pending operations precede nothing
    have hprec : ∀ a, ∀ b ∈ pending, ¬ Precedes (historyAdapter methods history) b a := by
      intro a b hb hprec
      obtain ⟨r, v, hans, -⟩ := (h.precedes_iff (hlt ((hpending b).mp hb).1)).mp hprec
      exact hno b hb r v hans
    refine List.pairwise_append.mpr ⟨?_, ?_, fun a _ b hb => hprec a b hb⟩
    · refine hlin.extends_precedence.imp_of_mem fun _ hb hans hprec => hans ?_
      exact (h.precedes_iff (hlt (hinvoke _ hb))).mp hprec
    · exact List.pairwise_of_forall_mem_list fun a _ b hb => hprec a b hb
  · obtain ⟨s', hrun⟩ := (h.exists_runAll_iff _ s).mpr (h.runsInOrder_append
      (fun i hi => ⟨((hpending i).mp hi).1, hno i hi⟩) hlin.runs)
    exact ⟨s', hrun, rfl⟩

/-- The checker returns whether everything can be linearized from the start. -/
theorem WellFormed.checkRecursive_decides (hpolicy : Respects methods policy.equal)
    (firstState : S) :
    ∃ b, checkRecursive methods policy firstState history = .ok (some b) ∧
      (b = true ↔ Succeeds (historyAdapter methods history) (fun _ => true) history.length
        (List.replicate history.length false) firstState) := by
  have hcheck : checkRecursive methods policy firstState history =
      .ok (search policy history.length firstState (historyAdapter methods history)
        fun _ => true) := by
    simp only [checkRecursive, h.recursiveMethods_eq]
    rfl
  rw [hcheck]
  by_cases hn : history.length = 0
  · -- an empty history is accepted without a search
    exact ⟨true, by simp [search, hn], iff_of_true rfl (.done (by simp [hn]) rfl)⟩
  · obtain ⟨b, hb, hiff⟩ :=
      search_decides h.arranged.indexed.tried (h.congruent hpolicy) hn firstState
    exact ⟨b, by rw [hb], hiff⟩

/-- The search succeeds exactly if there is a linearization of the history. -/
theorem WellFormed.succeeds_iff_linearizes :
    Succeeds (historyAdapter methods history) (fun _ => true) history.length
        (List.replicate history.length false) s ↔
      ∃ order, Linearizes methods s history order := by
  refine (succeeds_iff_exists_linearization h.arranged (by simp) closed_replicate).trans ?_
  constructor
  · rintro ⟨order, dropped, hlin⟩
    exact ⟨order, h.linearizes hlin⟩
  · rintro ⟨order, hlin⟩
    obtain ⟨order', hlin'⟩ := h.exists_linearization hlin
    exact ⟨order', [], hlin'⟩

end

/-- **The recursive checker is exact.** For every specification with total deterministic methods,
every equality of states that the methods respect, and every well-formed history, `Check` returns,
and it returns `true` if and only if some total order of the completed operations and of some
pending ones extends real-time precedence and runs on the first state with the recorded
results. -/
theorem checkRecursive_exact (h : WellFormed methods history) {policy : CachePolicy S}
    (hpolicy : Respects methods policy.equal) (firstState : S) :
    ∃ b, checkRecursive methods policy firstState history = .ok (some b) ∧
      (b = true ↔ ∃ order, Linearizes methods firstState history order) := by
  obtain ⟨b, hb, hiff⟩ := h.checkRecursive_decides hpolicy firstState
  exact ⟨b, hb, hiff.trans h.succeeds_iff_linearizes⟩

end Exact

/-! ### A counter -/

/-- A counter: `inc` returns the old value, `get` the current one. -/
def counterMethods : MethodMap ℕ Unit ℕ
  | "inc" => some fun s _ => (s, s + 1)
  | "get" => some fun s _ => (s, s)
  | _ => none

/-- The hash and the equality of counters. -/
def counterPolicy : CachePolicy ℕ where
  hash := UInt64.ofNat
  equal := (· == ·)

/-- The task of a counter operation. -/
def counterTask (id : ℕ) (name : String) (retVal : ℕ) : Task Unit ℕ :=
  ⟨id, id, id, name, (), retVal⟩

/-- An increment that overlaps with a pending read. -/
def counterHistory : List (HistoryEvent Unit ℕ) :=
  [.invoke (counterTask 0 "inc" 0), .invoke (counterTask 1 "get" 0),
    .response (counterTask 0 "inc" 0) 0]

theorem invokesAt_counterHistory {i : ℕ} {t : Task Unit ℕ} (h : InvokesAt counterHistory i t) :
    (i = 0 ∧ t = counterTask 0 "inc" 0) ∨ (i = 1 ∧ t = counterTask 1 "get" 0) := by
  match i, h with
  | 0, h => exact .inl ⟨rfl, by simpa [InvokesAt, counterHistory] using h.symm⟩
  | 1, h => exact .inr ⟨rfl, by simpa [InvokesAt, counterHistory] using h.symm⟩
  | 2, h => simp [InvokesAt, counterHistory] at h
  | i + 3, h => simp [InvokesAt, counterHistory] at h

theorem respondsAt_counterHistory {r v : ℕ} {t : Task Unit ℕ}
    (h : RespondsAt counterHistory r t v) : r = 2 ∧ t = counterTask 0 "inc" 0 ∧ v = 0 := by
  match r, h with
  | 0, h => simp [RespondsAt, counterHistory] at h
  | 1, h => simp [RespondsAt, counterHistory] at h
  | 2, h => exact ⟨rfl, by simpa [RespondsAt, counterHistory, eq_comm] using h⟩
  | r + 3, h => simp [RespondsAt, counterHistory] at h

theorem wellFormed_counterHistory : WellFormed counterMethods counterHistory where
  invoked_once i j t u hi hj htu := by
    obtain ⟨rfl, rfl⟩ | ⟨rfl, rfl⟩ := invokesAt_counterHistory hi <;>
      obtain ⟨rfl, rfl⟩ | ⟨rfl, rfl⟩ := invokesAt_counterHistory hj <;>
      simp [counterTask] at htu ⊢
  answered_once r q t u v w hr hq _ :=
    (respondsAt_counterHistory hr).1.trans (respondsAt_counterHistory hq).1.symm
  answered_after r u v hr := by
    obtain ⟨rfl, rfl, rfl⟩ := respondsAt_counterHistory hr
    exact ⟨0, by omega, counterTask 0 "inc" 0, rfl, rfl⟩
  named i t hi := by
    obtain ⟨rfl, rfl⟩ | ⟨rfl, rfl⟩ := invokesAt_counterHistory hi <;>
      simp [counterTask, counterMethods]

theorem respects_counterPolicy : Respects counterMethods counterPolicy.equal := by
  intro name method hmethod s t hst args
  obtain rfl : s = t := by simpa [counterPolicy] using hst
  exact ⟨fun _ => rfl, by simp [counterPolicy]⟩

theorem checkRecursive_exact_counterHistory :
    ∃ b, checkRecursive counterMethods counterPolicy 0 counterHistory = .ok (some b) ∧
      (b = true ↔ ∃ order, Linearizes counterMethods 0 counterHistory order) :=
  checkRecursive_exact wellFormed_counterHistory respects_counterPolicy 0

end Lincheck

end LTest
