import LTest.Lincheck.DualHistory

/-!
# The dual checker

`LinearizabilityDualCheckerRecursive` runs the search over dual histories. Here a pending phase
may also be dropped, and a completed search is validated: a request that was answered but has no
completed follow-up must belong to a blocking method. The validation never rejects anything,
since such a request has been applied.

## Main definitions

* `buildDualHistoryEventInfo`, `dualAdapter`, `validateCompletedLinearization`, `checkDual` — the
  checker

## Main results

* `DualWellFormed.validate_of_linearization` — the validation accepts every linearization
* `checkDual_exact` — the checker returns `true` if and only if the history is linearizable
-/

namespace LTest

namespace Lincheck

open Matching

/-! ### The checker -/

/-- `DualHistoryEventInfo`; `task` is the address of the task. -/
structure DualHistoryEventInfo (Args Val : Type) where
  kind : DualHistoryEventKind
  name : String
  task : ℕ
  args : Args
  opId : ℤ
  responseIndex : Option ℕ
  result : Option Val

variable {S Args Val : Type}

/-- A response is looked up by its task and then by its operation id, among the invokes of its
phase. -/
def DualHistoryEvent.mark (event : DualHistoryEvent Args Val) : Mark (Phase × ℕ) (Phase × ℤ) :=
  if event.kind.isInvoke then .opening event.key (event.kind.phase, event.task.coro.id)
  else .closing event.key (event.kind.phase, event.task.coro.id)

/-- The entry of an event, with the response index it gets. -/
def DualHistoryEvent.info (event : DualHistoryEvent Args Val) (responseIndex : Option ℕ) :
    DualHistoryEventInfo Args Val where
  kind := event.kind
  name := event.task.coro.name
  task := event.task.coro.address
  args := event.task.coro.args
  opId := event.task.coro.id
  responseIndex := responseIndex
  result := event.result

/-- `BuildDualHistoryEventInfo`. -/
def buildDualHistoryEventInfo (history : List (DualHistoryEvent Args Val)) :
    List (DualHistoryEventInfo Args Val) :=
  List.zipWith DualHistoryEvent.info history (closings (history.map DualHistoryEvent.mark))

/-- The methods of the invokes, `method_by_event`. -/
def dualMethods (methods : DualMethodMap S Args Val)
    (events : List (DualHistoryEventInfo Args Val)) :
    Except String (List (Option (DualMethod S Args Val))) :=
  methodByEvent "No method in dual spec for: " methods (·.kind.isInvoke) (·.name) events

/-- The tasks in `completed_followups`. -/
def completedFollowups (events : List (DualHistoryEventInfo Args Val)) : List ℕ :=
  (events.filter (·.kind = .followUpResponse)).map (·.task)

/-- The names in `incomplete_followups`. -/
def incompleteFollowups (events : List (DualHistoryEventInfo Args Val)) : List String :=
  (events.filter fun event => event.kind = .requestInvoke && event.responseIndex.isSome &&
    !(completedFollowups events).contains event.task).map (·.name)

/-- `validate_completed_linearization`. -/
def validateCompletedLinearization (methods : DualMethodMap S Args Val)
    (incomplete : List String) (_ : S) : Bool :=
  incomplete.all fun name =>
    match methods name with
    | some (.blocking _ _) => true
    | _ => false

variable [BEq Val]

/-- An invoke without a response accepts every value. -/
def isExpected (hasResponse : Bool) (result : Option Val) (expected : Val) : Bool :=
  !hasResponse || (result.map (expected == ·)).getD false

/-- `TryApply` for an event with its method; `result` is the one of its response. -/
def DualMethod.tryApply (method : DualMethod S Args Val) (event : DualHistoryEventInfo Args Val)
    (result : Option Val) (state : S) : Option S :=
  match event.kind, method with
  | .ordinaryInvoke, .nonBlocking f =>
    let r := f state event.args
    if isExpected event.responseIndex.isSome result r.1 then some r.2 else none
  | .ordinaryInvoke, .predicate f =>
    let r := f state event.args result
    if r.1 then some r.2 else none
  | .requestInvoke, .blocking request _ => some (request state event.args event.opId)
  | .followUpInvoke, .blocking _ followup =>
    let r := followup state event.args event.opId
    match r.1 with
    | none => none
    | some expected =>
      if isExpected event.responseIndex.isSome result expected then some r.2 else none
  | _, _ => none

/-- `Adapter` of the dual checker. -/
def dualAdapter (events : List (DualHistoryEventInfo Args Val))
    (methodByEvent : List (Option (DualMethod S Args Val))) : Adapter S where
  isInvoke i := (events[i]?.map (·.kind.isInvoke)).getD false
  isResponse i := (events[i]?.map (·.kind.isResponse)).getD false
  responseIndex i := events[i]?.bind (·.responseIndex)
  canDropPendingInvoke i :=
    (events[i]?.map fun event => event.responseIndex.isNone && event.kind.isInvoke).getD false
  tryApply i state :=
    match events[i]?, methodByEvent[i]? with
    | some event, some (some method) =>
      let result := event.responseIndex.bind fun r => events[r]?.bind (·.result)
      method.tryApply event result state
    | _, _ => none

/-- `LinearizabilityDualCheckerRecursive::Check`. -/
def checkDual (methods : DualMethodMap S Args Val) (policy : CachePolicy S) (initState : S)
    (history : List (DualHistoryEvent Args Val)) : Except String (Option Bool) := do
  if history.isEmpty then return some true
  let events := buildDualHistoryEventInfo history
  let methodByEvent ← dualMethods methods events
  return search policy history.length initState (dualAdapter events methodByEvent)
    (validateCompletedLinearization methods (incompleteFollowups events))

/-! ### What the adapter sees -/

section Adapter

variable {methods : DualMethodMap S Args Val} {history : List (DualHistoryEvent Args Val)} {i : ℕ}

omit [BEq Val] in
theorem opensAt_dualMark {k : Phase × ℕ} :
    OpensAt (history.map DualHistoryEvent.mark) k i ↔
      ∃ e, DualInvokesAt history i e ∧ e.key = k := by
  rw [opensAt_map]
  refine exists_congr fun e => ?_
  rw [DualInvokesAt, DualHistoryEvent.mark, and_assoc]
  cases e.kind.isInvoke <;> simp [Mark.Opens]

omit [BEq Val] in
theorem closesAt_dualMark {k : Phase × ℕ} {r : ℕ} :
    ClosesAt (history.map DualHistoryEvent.mark) k r ↔
      ∃ e, DualRespondsAt history r e ∧ e.key = k := by
  rw [closesAt_map]
  refine exists_congr fun e => ?_
  rw [DualRespondsAt, DualHistoryEvent.mark, and_assoc, e.kind.isResponse_eq_not_isInvoke]
  cases e.kind.isInvoke <;> simp [Mark.Closes]

omit [BEq Val] in
theorem DualWellFormed.wellMatched (h : DualWellFormed methods history) :
    WellMatched (history.map DualHistoryEvent.mark) where
  opened_once k i j hi hj := by
    obtain ⟨e, he, hek⟩ := opensAt_dualMark.mp hi
    obtain ⟨e', he', hek'⟩ := opensAt_dualMark.mp hj
    exact h.invoked_once i j e e' he he' (hek.trans hek'.symm)
  closed_once k r q hr hq := by
    obtain ⟨e, he, hek⟩ := closesAt_dualMark.mp hr
    obtain ⟨e', he', hek'⟩ := closesAt_dualMark.mp hq
    exact h.answered_once r q e e' he he' (hek.trans hek'.symm)
  opened k r hr := by
    obtain ⟨e', he', hek'⟩ := closesAt_dualMark.mp hr
    obtain ⟨i, hir, e, he, hek⟩ := h.answered_after r e' he'
    exact ⟨i, hir, opensAt_dualMark.mpr ⟨e, he, hek.trans hek'⟩⟩

omit [BEq Val] in
theorem getElem?_buildDualHistoryEventInfo (history : List (DualHistoryEvent Args Val)) (i : ℕ) :
    (buildDualHistoryEventInfo history)[i]? = history[i]?.map fun event =>
      event.info ((closings (history.map DualHistoryEvent.mark)).getD i none) :=
  getElem?_zipWith_closings ..

/-- The methods the checker finds for a well-formed history. -/
def dualMethodsOf (methods : DualMethodMap S Args Val)
    (history : List (DualHistoryEvent Args Val)) : List (Option (DualMethod S Args Val)) :=
  history.map fun event =>
    if event.kind.isInvoke then methods event.task.coro.name else none

omit [BEq Val] in
theorem DualWellFormed.dualMethods_eq (h : DualWellFormed methods history) :
    dualMethods methods (buildDualHistoryEventInfo history) =
      .ok (dualMethodsOf methods history) := by
  rw [dualMethods, methodByEvent_eq_ok]
  · refine congrArg Except.ok (List.ext_getElem? fun i => ?_)
    rw [List.getElem?_map, getElem?_buildDualHistoryEventInfo, dualMethodsOf, List.getElem?_map,
      Option.map_map]
    rfl
  · intro event hmem hinv
    obtain ⟨i, hi⟩ := List.mem_iff_getElem?.mp hmem
    rw [getElem?_buildDualHistoryEventInfo] at hi
    obtain ⟨e, he, rfl⟩ := Option.map_eq_some_iff.mp hi
    exact h.named i e ⟨he, hinv⟩

section

variable (methods)

/-- The adapter of the checker for a well-formed history. -/
def dualHistoryAdapter
    (history : List (DualHistoryEvent Args Val)) : Adapter S :=
  dualAdapter (buildDualHistoryEventInfo history) (dualMethodsOf methods history)

/-- What the checker reads of one event of a dual history. -/
theorem dualHistoryAdapter_of_getElem? {e : DualHistoryEvent Args Val} (he : history[i]? = some e) :
    (dualHistoryAdapter methods history).isInvoke i = e.kind.isInvoke ∧
      (dualHistoryAdapter methods history).isResponse i = e.kind.isResponse ∧
      (dualHistoryAdapter methods history).responseIndex i =
        (closings (history.map DualHistoryEvent.mark)).getD i none ∧
      (dualHistoryAdapter methods history).canDropPendingInvoke i =
        (((closings (history.map DualHistoryEvent.mark)).getD i none).isNone &&
          e.kind.isInvoke) := by
  have hinfo := getElem?_buildDualHistoryEventInfo history i
  rw [he] at hinfo
  refine ⟨?_, ?_, ?_, ?_⟩
  all_goals
    simp only [dualHistoryAdapter, dualAdapter, hinfo]
    rfl

/-- The events of a dual history as the checker sees them. -/
theorem readsMarks_dualHistoryAdapter (history : List (DualHistoryEvent Args Val)) :
    ReadsMarks (dualHistoryAdapter methods history) (history.map DualHistoryEvent.mark) where
  isInvoke i hi := by
    have he : history[i]? = some _ := List.getElem?_eq_getElem (by rwa [List.length_map] at hi)
    rw [(dualHistoryAdapter_of_getElem? methods he).1]
    constructor
    · intro hinv
      exact ⟨_, opensAt_dualMark.mpr ⟨_, ⟨he, hinv⟩, rfl⟩⟩
    · rintro ⟨k, ho⟩
      obtain ⟨e', he', -⟩ := opensAt_dualMark.mp ho
      rw [Option.some.inj (he.symm.trans he'.1)]
      exact he'.2
  isResponse i hi := by
    have he : history[i]? = some _ := List.getElem?_eq_getElem (by rwa [List.length_map] at hi)
    rw [(dualHistoryAdapter_of_getElem? methods he).2.1]
    constructor
    · intro hresp
      exact ⟨_, closesAt_dualMark.mpr ⟨_, ⟨he, hresp⟩, rfl⟩⟩
    · rintro ⟨k, hc⟩
      obtain ⟨e', he', -⟩ := closesAt_dualMark.mp hc
      rw [Option.some.inj (he.symm.trans he'.1)]
      exact he'.2
  responseIndex i hi := by
    have he : history[i]? = some _ := List.getElem?_eq_getElem (by rwa [List.length_map] at hi)
    exact (dualHistoryAdapter_of_getElem? methods he).2.2.1

end

theorem DualWellFormed.arranged (h : DualWellFormed methods history) :
    Arranged (dualHistoryAdapter methods history) history.length := by
  have := (readsMarks_dualHistoryAdapter methods history).arranged h.wellMatched
  rwa [List.length_map] at this

theorem dualHistoryAdapter_isInvoke (hi : i < history.length) :
    (dualHistoryAdapter methods history).isInvoke i = true ↔ ∃ e, DualInvokesAt history i e := by
  rw [(readsMarks_dualHistoryAdapter methods history).isInvoke i (by simpa using hi)]
  simp only [opensAt_dualMark]
  exact ⟨fun ⟨_, e, he, _⟩ => ⟨e, he⟩, fun ⟨e, he⟩ => ⟨_, e, he, rfl⟩⟩

omit [BEq Val] in
theorem DualWellFormed.getD_closings_iff (h : DualWellFormed methods history) (i r : ℕ) :
    (closings (history.map DualHistoryEvent.mark)).getD i none = some r ↔
      ∃ v, DualAnswers history i r v := by
  rw [getD_closings h.wellMatched]
  constructor
  · rintro ⟨k, ho, hc⟩
    obtain ⟨e, he, hek⟩ := opensAt_dualMark.mp ho
    obtain ⟨e', he', hek'⟩ := closesAt_dualMark.mp hc
    exact ⟨_, e, e', he, he', hek'.trans hek.symm, rfl⟩
  · rintro ⟨v, e, e', he, he', hkey, -⟩
    exact ⟨e.key, opensAt_dualMark.mpr ⟨e, he, rfl⟩, closesAt_dualMark.mpr ⟨e', he', hkey⟩⟩

theorem DualWellFormed.responseIndex_iff (h : DualWellFormed methods history)
    (hi : i < history.length) (r : ℕ) :
    (dualHistoryAdapter methods history).responseIndex i = some r ↔
      ∃ v, DualAnswers history i r v := by
  rw [(readsMarks_dualHistoryAdapter methods history).responseIndex i (by simpa using hi),
    h.getD_closings_iff]

omit [BEq Val] in
theorem DualAnswers.unique (h : DualWellFormed methods history) {r q : ℕ} {v w : Option Val}
    (hr : DualAnswers history i r v) (hq : DualAnswers history i q w) : r = q ∧ v = w := by
  obtain ⟨e, a, he, ha, hak, rfl⟩ := hr
  obtain ⟨e', b, he', hb, hbk, rfl⟩ := hq
  obtain rfl : e = e' := Option.some.inj (he.1.symm.trans he'.1)
  obtain rfl := h.answered_once r q a b ha hb (hak.trans hbk.symm)
  obtain rfl : a = b := Option.some.inj (ha.1.symm.trans hb.1)
  exact ⟨rfl, rfl⟩

omit [BEq Val] in
/-- Something is recorded for every invoke. -/
theorem exists_recorded (history : List (DualHistoryEvent Args Val)) (i : ℕ) :
    ∃ result, Recorded history i result := by
  by_cases h : ∃ r v, DualAnswers history i r v
  · obtain ⟨r, v, hans⟩ := h
    exact ⟨v, .inl ⟨r, hans⟩⟩
  · exact ⟨none, .inr ⟨rfl, fun r v hans => h ⟨r, v, hans⟩⟩⟩

end Adapter

/-! ### Applying a phase -/

section Apply

variable {methods : DualMethodMap S Args Val} {history : List (DualHistoryEvent Args Val)}
  {result : Option Val} {e : DualHistoryEvent Args Val} {i : ℕ} {method : DualMethod S Args Val}

omit [BEq Val] in
/-- The result that the checker reads is the recorded one. -/
theorem DualWellFormed.result_eq (h : DualWellFormed methods history)
    (hrec : Recorded history i result) :
    ((closings (history.map DualHistoryEvent.mark)).getD i none).bind
      (fun r => (buildDualHistoryEventInfo history)[r]?.bind (·.result)) = result := by
  obtain ⟨r, hans⟩ | ⟨rfl, hno⟩ := hrec
  · rw [(h.getD_closings_iff i r).mpr ⟨result, hans⟩]
    obtain ⟨_, e', -, he', -, rfl⟩ := hans
    rw [Option.bind_some, getElem?_buildDualHistoryEventInfo, he'.1]
    rfl
  · cases hr : (closings (history.map DualHistoryEvent.mark)).getD i none with
    | none => rfl
    | some r =>
      obtain ⟨v, hans⟩ := (h.getD_closings_iff i r).mp hr
      exact absurd hans (hno r v)

/-- The comparison with the response is the one of the specification: every response but the one
of a request carries a result. -/
theorem DualWellFormed.isExpected_iff (h : DualWellFormed methods history)
    (he : DualInvokesAt history i e) (hphase : e.kind.phase ≠ .request)
    (hrec : Recorded history i result) (value : Val) :
    isExpected ((closings (history.map DualHistoryEvent.mark)).getD i none).isSome result value =
      true ↔ Matches value result := by
  obtain ⟨r, hans⟩ | ⟨rfl, hno⟩ := hrec
  · rw [(h.getD_closings_iff i r).mpr ⟨result, hans⟩]
    obtain ⟨e₀, e', he₀, ⟨-, hresp⟩, hkey, rfl⟩ := hans
    obtain rfl : e = e₀ := Option.some.inj (he.1.symm.trans he₀.1)
    have hphase' : e'.kind.phase ≠ .request := by
      rwa [show e'.kind.phase = e.kind.phase from congrArg Prod.fst hkey]
    cases e' with
    | response _ v => simp [isExpected, Matches, DualHistoryEvent.result]
    | followUpResponse _ v => simp [isExpected, Matches, DualHistoryEvent.result]
    | requestResponse _ => exact absurd rfl hphase'
    | _ => cases hresp
  · cases hr : (closings (history.map DualHistoryEvent.mark)).getD i none with
    | none => simp [isExpected, Matches]
    | some r =>
      obtain ⟨v, hans⟩ := (h.getD_closings_iff i r).mp hr
      exact absurd hans (hno r v)

theorem DualMethod.tryApply_info_iff (hinv : e.kind.isInvoke = true) {o : Option ℕ}
    (hexp : e.kind.phase ≠ .request → ∀ value, isExpected o.isSome result value = true ↔
      Matches value result) (method : DualMethod S Args Val) {s s' : S} :
    method.tryApply (e.info o) result s = some s' ↔
      DualMethod.Applies e.task.coro result s method e.kind.phase s' := by
  cases e with
  | invoke t =>
    cases method with
    | nonBlocking f =>
      show (if isExpected o.isSome result (f s t.coro.args).1 then _ else none) = some s' ↔ _
      rw [Option.ite_none_right_eq_some, hexp (by simp [DualHistoryEvent.kind,
        DualHistoryEventKind.phase])]
      constructor
      · rintro ⟨hm, hs⟩
        cases hs
        exact .nonBlocking hm
      · intro happ
        cases happ with
        | nonBlocking hm => exact ⟨hm, rfl⟩
    | predicate f =>
      show (if (f s t.coro.args result).1 then _ else none) = some s' ↔ _
      rw [Option.ite_none_right_eq_some]
      constructor
      · rintro ⟨hm, hs⟩
        cases hs
        exact .predicate hm
      · intro happ
        cases happ with
        | predicate hm => exact ⟨hm, rfl⟩
    | blocking request followup => exact ⟨nofun, nofun⟩
  | requestInvoke t =>
    cases method with
    | blocking request followup =>
      constructor
      · intro hs
        cases hs
        exact .request
      · intro happ
        cases happ with
        | request => rfl
    | nonBlocking f => exact ⟨nofun, nofun⟩
    | predicate f => exact ⟨nofun, nofun⟩
  | followUpInvoke t =>
    cases method with
    | blocking request followup =>
      have htry : (DualMethod.blocking request followup).tryApply
          ((DualHistoryEvent.followUpInvoke t).info o) result s =
            (followup s t.coro.args t.coro.id).1.bind fun expected =>
              if isExpected o.isSome result expected then
                some (followup s t.coro.args t.coro.id).2 else none := by
        simp only [DualMethod.tryApply, DualHistoryEvent.info, DualHistoryEvent.kind,
          DualHistoryEvent.task]
        cases (followup s t.coro.args t.coro.id).1 <;> rfl
      rw [htry, Option.bind_eq_some_iff]
      constructor
      · rintro ⟨v, hv, hs⟩
        rw [Option.ite_none_right_eq_some, hexp (by simp [DualHistoryEvent.kind,
          DualHistoryEventKind.phase])] at hs
        obtain ⟨hm, hs⟩ := hs
        cases hs
        exact .followUp hv hm
      · intro happ
        cases happ with
        | followUp hv hm =>
          refine ⟨_, hv, Option.ite_none_right_eq_some.mpr ⟨?_, rfl⟩⟩
          exact (hexp (by simp [DualHistoryEvent.kind, DualHistoryEventKind.phase]) _).mpr hm
    | nonBlocking f => exact ⟨nofun, nofun⟩
    | predicate f => exact ⟨nofun, nofun⟩
  | _ => cases hinv

/-- **Applying a phase** with the checker is applying it with the specification. -/
theorem DualWellFormed.tryApply_iff (h : DualWellFormed methods history)
    (he : DualInvokesAt history i e) (hmethod : methods e.task.coro.name = some method)
    (hrec : Recorded history i result) {s s' : S} :
    (dualHistoryAdapter methods history).tryApply i s = some s' ↔
      DualMethod.Applies e.task.coro result s method e.kind.phase s' := by
  have hmethod' : (dualMethodsOf methods history)[i]? = some (some method) := by
    simp [dualMethodsOf, he.1, he.2, hmethod]
  have hresult := h.result_eq hrec
  rw [← DualMethod.tryApply_info_iff he.2 fun hphase => h.isExpected_iff he hphase hrec]
  simp only [dualHistoryAdapter, dualAdapter, getElem?_buildDualHistoryEventInfo, he.1, hmethod',
    Option.map_some, DualHistoryEvent.info] at hresult ⊢
  rw [hresult]

theorem tryApply_of_not_dualInvokesAt (hi : ¬ ∃ e, DualInvokesAt history i e) (s : S) :
    (dualHistoryAdapter methods history).tryApply i s = none := by
  simp only [dualHistoryAdapter, dualAdapter, getElem?_buildDualHistoryEventInfo, dualMethodsOf,
    List.getElem?_map]
  cases he : history[i]? with
  | none => rfl
  | some e =>
    have hinv : e.kind.isInvoke = false := by
      rw [← Bool.not_eq_true]
      exact fun hinv => hi ⟨e, he, hinv⟩
    simp [hinv]

/-- A method that respects the equality of states is applied alike to equal states. -/
theorem DualMethod.Respects.tryApply_rel {equal : S → S → Bool} {s t : S}
    (h : method.Respects equal s t) (event : DualHistoryEventInfo Args Val) (result : Option Val) :
    Option.Rel (fun s' t' => equal s' t' = true) (method.tryApply event result s)
      (method.tryApply event result t) := by
  have hexp : ∀ {b : Bool} {v w : Val}, (∀ x, (v == x) = (w == x)) →
      isExpected b result v = isExpected b result w := by
    intro b v w hvw
    simp only [isExpected, hvw]
  cases method with
  | nonBlocking f =>
    obtain ⟨hval, hnext⟩ := h event.args
    cases hkind : event.kind with
    | ordinaryInvoke =>
      simp only [DualMethod.tryApply, hkind, hexp hval]
      split
      · exact .some hnext
      · exact .none
    | _ => simp only [DualMethod.tryApply, hkind]; exact .none
  | predicate f =>
    obtain ⟨hval, hnext⟩ := h event.args result
    cases hkind : event.kind with
    | ordinaryInvoke =>
      simp only [DualMethod.tryApply, hkind, hval]
      split
      · exact .some hnext
      · exact .none
    | _ => simp only [DualMethod.tryApply, hkind]; exact .none
  | blocking request followup =>
    obtain ⟨hreq, hval, hnext⟩ := h event.args event.opId
    cases hkind : event.kind with
    | requestInvoke =>
      simp only [DualMethod.tryApply, hkind]
      exact .some hreq
    | followUpInvoke =>
      simp only [DualMethod.tryApply, hkind]
      generalize (followup s event.args event.opId).1 = a at hval
      generalize (followup t event.args event.opId).1 = b at hval
      cases hval with
      | none => exact .none
      | some hvw =>
        simp only [hexp hvw]
        split
        · exact .some hnext
        · exact .none
    | _ => simp only [DualMethod.tryApply, hkind]; exact .none

theorem DualWellFormed.congruent {policy : CachePolicy S}
    (hpolicy : DualRespects methods policy.equal) (incomplete : List String) :
    Congruent policy (dualHistoryAdapter methods history)
      (validateCompletedLinearization methods incomplete) where
  onComplete _ _ _ := rfl
  tryApply s t hst i := by
    by_cases hi : ∃ e, DualInvokesAt history i e
    · obtain ⟨e, he, hinv⟩ := hi
      simp only [dualHistoryAdapter, dualAdapter, getElem?_buildDualHistoryEventInfo, he,
        dualMethodsOf, List.getElem?_map, Option.map_some, hinv, if_true]
      cases hmethod : methods e.task.coro.name with
      | none => exact .none
      | some method => exact (hpolicy _ method hmethod s t hst).tryApply_rel _ _
    · rw [tryApply_of_not_dualInvokesAt hi, tryApply_of_not_dualInvokesAt hi]
      exact .none

end Apply

/-! ### Exactness -/

section Exact

variable {methods : DualMethodMap S Args Val} {history : List (DualHistoryEvent Args Val)}

section

variable (h : DualWellFormed methods history)
include h

/-- Running invokes with the adapter is running them with the specification. -/
theorem DualWellFormed.exists_runAll_iff (order : List ℕ) (s : S) :
    (∃ s', runAll (dualHistoryAdapter methods history) order s = some s') ↔
      DualRunsInOrder methods history order s := by
  induction order generalizing s with
  | nil => exact ⟨fun _ => trivial, fun _ => ⟨s, rfl⟩⟩
  | cons i rest ih =>
    rw [exists_runAll_cons]
    constructor
    · rintro ⟨s₁, happ, hrun⟩
      by_cases hi : ∃ e, DualInvokesAt history i e
      · obtain ⟨e, he⟩ := hi
        obtain ⟨method, hmethod⟩ := Option.ne_none_iff_exists'.mp (h.named i e he)
        obtain ⟨result, hrec⟩ := exists_recorded history i
        exact ⟨e, method, result, s₁, he, hmethod, hrec, (h.tryApply_iff he hmethod hrec).mp happ,
          (ih s₁).mp hrun⟩
      · simp [tryApply_of_not_dualInvokesAt hi] at happ
    · rintro ⟨e, method, result, s₁, he, hmethod, hrec, happ, hrest⟩
      exact ⟨s₁, (h.tryApply_iff he hmethod hrec).mpr happ, (ih s₁).mpr hrest⟩

theorem DualWellFormed.precedes_iff {a b : ℕ} (ha : a < history.length) :
    Precedes (dualHistoryAdapter methods history) a b ↔ ∃ r v, DualAnswers history a r v ∧ r < b :=
  Lincheck.precedes_iff fun _ => h.responseIndex_iff ha _

theorem DualWellFormed.droppable_iff {i : ℕ} (hi : ∃ e, DualInvokesAt history i e) :
    ((dualHistoryAdapter methods history).responseIndex i = none ∧
      (dualHistoryAdapter methods history).canDropPendingInvoke i = true) ↔
      ∀ r v, ¬ DualAnswers history i r v := by
  obtain ⟨e, he, hinv⟩ := hi
  have hlt := (List.getElem?_eq_some_iff.mp he).1
  have hdrop : (dualHistoryAdapter methods history).canDropPendingInvoke i =
      ((dualHistoryAdapter methods history).responseIndex i).isNone := by
    obtain ⟨-, -, hresponse, hcan⟩ := dualHistoryAdapter_of_getElem? methods he
    rw [hcan, hresponse, hinv, Bool.and_true]
  rw [hdrop, Option.isNone_iff_eq_none, and_self, Option.eq_none_iff_forall_ne_some]
  refine forall_congr' fun r => ?_
  rw [ne_eq, h.responseIndex_iff hlt, not_exists]

/-- **Linearizations for the search are those of the history**, when nothing is validated. -/
theorem DualWellFormed.linearization_iff {s : S} {order dropped : List ℕ} :
    Linearization (dualHistoryAdapter methods history) (fun _ => true) history.length
        (List.replicate history.length false) s order dropped ↔
      DualLinearizes methods s history order dropped := by
  have hlt : ∀ {i}, (∃ e, DualInvokesAt history i e) → i < history.length := fun ⟨e, he⟩ =>
    (List.getElem?_eq_some_iff.mp he.1).1
  have hleft : ∀ i, (i < history.length ∧ (dualHistoryAdapter methods history).isInvoke i = true ∧
      isLinearized (List.replicate history.length false) i = false) ↔
      ∃ e, DualInvokesAt history i e := by
    intro i
    constructor
    · exact fun ⟨hi, hinv, _⟩ => (dualHistoryAdapter_isInvoke hi).mp hinv
    · exact fun hi => ⟨hlt hi, (dualHistoryAdapter_isInvoke (hlt hi)).mpr hi, by simp⟩
  constructor
  · rintro ⟨hnodup, hmem, hdrop, hext, s', hrun, -⟩
    simp only [hleft] at hmem
    refine ⟨hnodup, hmem, fun i hi => ?_, ?_, (h.exists_runAll_iff order s).mp ⟨s', hrun⟩⟩
    · exact (h.droppable_iff ((hmem i).mp (List.mem_append_right _ hi))).mp (hdrop i hi)
    · refine hext.imp_of_mem fun _ hb hprec hans => hprec ?_
      exact (h.precedes_iff (hlt ((hmem _).mp (List.mem_append_left _ hb)))).mpr hans
  · rintro ⟨hnodup, hmem, hpend, hext, hruns⟩
    obtain ⟨s', hrun⟩ := (h.exists_runAll_iff order s).mpr hruns
    refine ⟨hnodup, fun i => (hmem i).trans (hleft i).symm, fun i hi => ?_, ?_, s', hrun, rfl⟩
    · exact (h.droppable_iff ((hmem i).mp (List.mem_append_right _ hi))).mpr (hpend i hi)
    · refine hext.imp_of_mem fun _ hb hans hprec => hans ?_
      exact (h.precedes_iff (hlt ((hmem _).mp (List.mem_append_left _ hb)))).mp hprec

end

theorem DualRunsInOrder.applies_of_mem {order : List ℕ} {s : S}
    (h : DualRunsInOrder methods history order s) {i : ℕ} (hi : i ∈ order) :
    ∃ e method result s₁ s₂, DualInvokesAt history i e ∧
      methods e.task.coro.name = some method ∧
      DualMethod.Applies e.task.coro result s₁ method e.kind.phase s₂ := by
  induction order generalizing s with
  | nil => cases hi
  | cons j rest ih =>
    obtain ⟨e, method, result, s', he, hmethod, -, happ, hrest⟩ := h
    obtain rfl | hi := List.mem_cons.mp hi
    · exact ⟨e, method, result, s, s', he, hmethod, happ⟩
    · exact ih hrest hi

/-- **The validation accepts every linearization**: an answered request is not dropped, so it was
applied, and its method is blocking. -/
theorem DualWellFormed.validate_of_linearization (h : DualWellFormed methods history) {s : S}
    {order dropped : List ℕ} (hlin : DualLinearizes methods s history order dropped) (s' : S) :
    validateCompletedLinearization methods
      (incompleteFollowups (buildDualHistoryEventInfo history)) s' = true := by
  refine List.all_eq_true.mpr fun name hname => ?_
  simp only [incompleteFollowups, List.mem_map, List.mem_filter, Bool.and_eq_true,
    decide_eq_true_eq] at hname
  obtain ⟨info, ⟨hmem, ⟨hkind, hsome⟩, -⟩, rfl⟩ := hname
  obtain ⟨i, hi⟩ := List.mem_iff_getElem?.mp hmem
  rw [getElem?_buildDualHistoryEventInfo] at hi
  obtain ⟨e, he, rfl⟩ := Option.map_eq_some_iff.mp hi
  have hkind : e.kind = .requestInvoke := hkind
  have hinv : DualInvokesAt history i e := ⟨he, by rw [hkind]; rfl⟩
  obtain ⟨r, hr⟩ := Option.isSome_iff_exists.mp hsome
  obtain ⟨v, hans⟩ := (h.getD_closings_iff i r).mp hr
  have horder : i ∈ order := by
    obtain hi | hi := List.mem_append.mp ((hlin.mem i).mpr ⟨e, hinv⟩)
    · exact hi
    · exact absurd hans (hlin.pending i hi r v)
  obtain ⟨e', method, result, s₁, s₂, he', hmethod, happ⟩ := hlin.runs.applies_of_mem horder
  obtain rfl : e = e' := Option.some.inj (he.symm.trans he'.1)
  rw [hkind] at happ
  have hname : (e.info ((closings (history.map DualHistoryEvent.mark)).getD i none)).name =
      e.task.coro.name := rfl
  rw [hname, hmethod]
  generalize hphase : DualHistoryEventKind.requestInvoke.phase = phase at happ
  cases happ with
  | request => rfl
  | _ => cases hphase

theorem DualWellFormed.checkDual_decides (h : DualWellFormed methods history)
    {policy : CachePolicy S} (hpolicy : DualRespects methods policy.equal) (initState : S) :
    ∃ b, checkDual methods policy initState history = .ok (some b) ∧
      (b = true ↔ ∃ order dropped, DualLinearizes methods initState history order dropped) := by
  cases history with
  | nil =>
    refine ⟨true, rfl, iff_of_true rfl ⟨[], [], .nil, fun i => ?_, by simp, .nil, trivial⟩⟩
    simp [DualInvokesAt]
  | cons event rest =>
    obtain ⟨b, hb, hiff⟩ := search_exact h.arranged
      (DualWellFormed.congruent hpolicy (incompleteFollowups (buildDualHistoryEventInfo
        (event :: rest)))) (by simp) initState
    refine ⟨b, ?_, hiff.trans ?_⟩
    · simp only [checkDual, h.dualMethods_eq]
      exact congrArg Except.ok hb
    · constructor
      · rintro ⟨order, dropped, hlin⟩
        obtain ⟨s', hrun, -⟩ := hlin.runs
        exact ⟨order, dropped, h.linearization_iff.mp { hlin with runs := ⟨s', hrun, rfl⟩ }⟩
      · rintro ⟨order, dropped, hlin⟩
        have hlin' := h.linearization_iff.mpr hlin
        obtain ⟨s', hrun, -⟩ := hlin'.runs
        exact ⟨order, dropped,
          { hlin' with runs := ⟨s', hrun, h.validate_of_linearization hlin s'⟩ }⟩

/-- **The dual checker is exact.** For every dual specification, every equality of states that its
methods respect, and every well-formed history, `Check` returns, and it returns `true` if and only
if some pending phases can be dropped and the others ordered so that the order extends real-time
precedence and runs on the initial state. The validation at the end accepts all such orders. -/
theorem checkDual_exact (h : DualWellFormed methods history) {policy : CachePolicy S}
    (hpolicy : DualRespects methods policy.equal) (initState : S) :
    (∃ b, checkDual methods policy initState history = .ok (some b) ∧
      (b = true ↔ ∃ order dropped, DualLinearizes methods initState history order dropped)) ∧
    ∀ order dropped, DualLinearizes methods initState history order dropped →
      ∀ s, validateCompletedLinearization methods
        (incompleteFollowups (buildDualHistoryEventInfo history)) s = true :=
  ⟨h.checkDual_decides hpolicy initState, fun _ _ hlin => h.validate_of_linearization hlin⟩

end Exact

/-! ### A buffer -/

/-- A buffer: `put` appends a value, and `take` waits for one. -/
def bufferMethods : DualMethodMap (List ℕ) ℕ ℕ
  | "put" => some (.nonBlocking fun s x => (x, s ++ [x]))
  | "take" => some (.blocking (fun s _ _ => s) fun s _ _ => (s.head?, s.tail))
  | _ => none

/-- The hash and the equality of buffers. -/
def bufferPolicy : CachePolicy (List ℕ) where
  hash s := .ofNat s.length
  equal := (· == ·)

/-- The task of a buffer operation. -/
def bufferTask (id : ℕ) (name : String) (args : ℕ) : Task ℕ ℕ := ⟨id, id, id, name, args, 0⟩

/-- A `take` that returns the value of a pending `put`. -/
def bufferHistory : List (DualHistoryEvent ℕ ℕ) :=
  [.requestInvoke (bufferTask 0 "take" 0), .requestResponse (bufferTask 0 "take" 0),
    .invoke (bufferTask 1 "put" 5), .followUpInvoke (bufferTask 0 "take" 0),
    .followUpResponse (bufferTask 0 "take" 0) 5]

theorem dualWellFormed_bufferHistory : DualWellFormed bufferMethods bufferHistory :=
  .of_getElem (by decide) (by decide) (by decide)

theorem dualRespects_bufferPolicy : DualRespects bufferMethods bufferPolicy.equal := by
  intro name method _ s t hst
  obtain rfl : s = t := by simpa [bufferPolicy] using hst
  cases method with
  | nonBlocking f => exact fun args => ⟨fun _ => rfl, by simp [bufferPolicy]⟩
  | predicate f => exact fun args result => ⟨rfl, by simp [bufferPolicy]⟩
  | blocking request followup =>
    refine fun args id => ⟨by simp [bufferPolicy], ?_, by simp [bufferPolicy]⟩
    cases (followup s args id).1 with
    | none => exact .none
    | some v => exact .some fun _ => rfl

theorem checkDual_exact_bufferHistory :
    (∃ b, checkDual bufferMethods bufferPolicy [] bufferHistory = .ok (some b) ∧
      (b = true ↔ ∃ order dropped, DualLinearizes bufferMethods [] bufferHistory order dropped)) ∧
    ∀ order dropped, DualLinearizes bufferMethods [] bufferHistory order dropped →
      ∀ s, validateCompletedLinearization bufferMethods
        (incompleteFollowups (buildDualHistoryEventInfo bufferHistory)) s = true :=
  checkDual_exact dualWellFormed_bufferHistory dualRespects_bufferPolicy []

end Lincheck

end LTest
