import LTest.Wmm.Coherence

/-!
# Initial values

`RegisterLocation` appends an ordinary seq-cst write to thread `0`. Nothing orders it before the
accesses of the other threads: a thread that has never seen the location can store to it and then
still load the initial value, and the graph records that its own store comes before the initial
write. As long as no store is made blindly, the initial write stays first in the modification
order.

## Main definitions

* `Graph.IsRegistration` — the write that registered a location, its first event
* `ExecutionGraph.NoBlindStore` — a store is seq-cst, or its thread knows an event of the location

## Main results

* `ExecutionGraph.blind_store_overtaken` — a thread loads the initial value after its own store
* `ExecutionGraph.not_readFrom_registration` — without blind stores no event that knows another
  value reads the initial one
-/

namespace LTest

namespace Wmm

open Relation

variable {V : Type}

namespace Graph

/-- Event `i` is the first one of location `x`. In a reachable graph that is the write
`RegisterLocation` appended, see `ExecutionGraph.isRegistration_of_exec`. -/
def IsRegistration (g : Graph V) (x : ℤ) (i : ℕ) : Prop :=
  i < g.events.length ∧ (g.event i).location = x ∧ ∀ j < i, (g.event j).location ≠ x

instance (g : Graph V) (x : ℤ) (i : ℕ) : Decidable (g.IsRegistration x i) :=
  inferInstanceAs (Decidable (_ ∧ _ ∧ ∀ j < i, _))

/-- The registration of every location is first in its modification order. -/
def RegistrationFirst (g : Graph V) : Prop :=
  ∀ x i, 0 ≤ x → g.IsRegistration x i → ∀ j < g.events.length, (g.event j).location = x →
    (g.event j).modifies = true → j ≠ i → TransGen g.Mo i j

end Graph

namespace ExecutionGraph

variable [DecidableEq V] [Inhabited V] [AtomicOps V] {e : ExecutionGraph V} {l : List (ℕ × ℕ)}

/-- The event `RegisterLocation` appends is the first one of its location. -/
theorem isRegistration_of_exec {e' : ExecutionGraph V} (h : e.Inv) {v : V} {r : Ret V}
    (hen : e.Enabled (.registerLocation v)) (hex : e.exec (.registerLocation v) = some (e', r)) :
    r = .location e.nextLocationId ∧
      e'.graph.IsRegistration e.nextLocationId e.graph.events.length := by
  obtain ⟨n, hop, -⟩ | ⟨ev, l, -, hgrow, -, -, -, -, hnext⟩ := h.exec_cases hen hex
  · simp at hop
  obtain ⟨rfl, rfl⟩ := Prod.mk.inj (Option.some.inj hex)
  have hloc : ev.location = e.nextLocationId := by
    rcases hnext with hnext | ⟨hloc, -⟩
    · simp [registerLocation] at hnext
    · exact hloc
  refine ⟨rfl, by rw [hgrow.length]; omega, by rw [hgrow.event_length, hloc], fun j hj => ?_⟩
  rw [hgrow.event_of_lt hj]
  have := h.location_lt j hj
  omega

/-- A store is seq-cst, or some event of its location happens before the last event of its
thread. -/
def NoBlindStore (e : ExecutionGraph V) : Op V → Prop
  | .store location threadId order _ => order = .seqCst ∨
      ∃ i < e.graph.events.length, (e.graph.event i).location = location ∧
        (e.graph.event i).happensBefore
          (e.graph.event ((e.graph.eventsPerThread threadId).getLastD 0)) = true
  | _ => True

instance (e : ExecutionGraph V) (op : Op V) : Decidable (e.NoBlindStore op) :=
  match op with
  | .store .. => inferInstanceAs (Decidable (_ ∨ _))
  | .reset _ | .registerLocation _ | .load .. | .readModifyWrite .. |
    .unconditionalReadModifyWrite .. => inferInstanceAs (Decidable True)

/-- Thread `1` stores to a location registered by thread `0` and then loads it, and the initial
write comes first in the shuffle. -/
def blindStore : ExecutionGraph (BitVec 32) :=
  after [.reset 2, .registerLocation 0, .store 0 1 .relaxed 1, .load 0 1 .relaxed [2, 3]]

/-- **The load reads the initial value**, although the thread's own store happens before it. -/
theorem blind_store_overtaken :
    Reachable blindStore ∧ blindStore.graph.IsRegistration 0 2 ∧
      (blindStore.graph.event 3).location = 0 ∧ (blindStore.graph.event 3).isWrite = true ∧
      (blindStore.graph.event 4).location = 0 ∧ (blindStore.graph.event 4).isRead = true ∧
      (blindStore.graph.event 3).happensBefore (blindStore.graph.event 4) = true ∧
      (blindStore.graph.event 4).getReadFromEvent = some 2 :=
  ⟨reachable_after _, by decide +kernel⟩

omit [DecidableEq V] [Inhabited V] [AtomicOps V] in
/-- The event of a call that only writes was not stored blindly. -/
theorem exists_source_of_noBlindStore (h : e.Inv) {op : Op V} (hop : e.NoBlindStore op)
    {ev : Event V} (hev : e.writingEvent op = some ev) {g' : Graph V}
    (hgrow : Graph.Growth e.graph g' ev l)
    (hreg : e.graph.lastSeqCstWriteEvents ev.location ≠ none) : ∃ x, Graph.Source e.graph ev x := by
  have hseq : ev.isSeqCst = true → ∃ x, Graph.Source e.graph ev x := fun hsc => by
    obtain ⟨x, hx⟩ := Option.ne_none_iff_exists'.mp hreg
    exact ⟨x, .inl ⟨hsc, hx⟩⟩
  cases op with
  | registerLocation v =>
    obtain rfl := Option.some.inj hev
    obtain ⟨c, hc⟩ := Graph.exists_storeEvent e.graph e.nextLocationId initThreadId .seqCst v
    exact hseq (by rw [hc]; rfl)
  | store x t o v =>
    obtain rfl := Option.some.inj hev
    obtain ⟨c, hc⟩ := Graph.exists_storeEvent e.graph x t o v
    rcases hop with ho | ⟨i, hi, hil, hhb⟩
    · exact hseq (by rw [hc]; exact decide_eq_true ho)
    · -- the event the thread knows is in the past of the store
      have hloc : (e.graph.event i).location = (e.graph.storeEvent x t o v).location := by
        rw [hc]; exact hil
      have hthread : (e.graph.storeEvent x t o v).threadId = t := by rw [hc]; rfl
      obtain ⟨hlast, hlastt, -⟩ := h.graph.wf.getLastD_spec (hthread ▸ hgrow.thread_lt)
      have hhb' := Event.happensBefore_trans hhb
        (Event.happensBefore_iff.mpr (hgrow.clock.thread _ hlast (hlastt.trans hthread.symm)))
      rcases h.graph.kind i hi (hil ▸ Int.natCast_nonneg x) with hm | ⟨r, hr⟩
      · exact ⟨i, .inr ⟨i, hi, hloc, hhb', .inl ⟨hm, rfl⟩⟩⟩
      · exact ⟨r, .inr ⟨i, hi, hloc, hhb', .inr hr⟩⟩
  | _ => cases hev

theorem registrationFirst_of_growth (h : e.Inv) {op : Op V} (hop : e.NoBlindStore op) {ev : Event V}
    (hperf : Performs e op ev) {g' : Graph V} (hgrow : Graph.Growth e.graph g' ev l)
    (hfirst : e.graph.RegistrationFirst) : g'.RegistrationFirst := by
  intro x i hx hi j hj hjl hjm hne
  rcases hgrow.lt_or_eq hi.1 with hilt | rfl
  · have hi' : e.graph.IsRegistration x i := by
      obtain ⟨-, hil, hmin⟩ := hi
      rw [hgrow.event_of_lt hilt] at hil
      exact ⟨hilt, hil, fun k hk => by rw [← hgrow.event_of_lt (by omega)]; exact hmin k hk⟩
    -- what the registration reaches stays reached, and sources are reached
    have hold : ∀ y < e.graph.events.length, (e.graph.event y).location = x →
        (e.graph.event y).modifies = true → TransGen g'.Mo y e.graph.events.length →
        TransGen g'.Mo i e.graph.events.length := by
      intro y hy hyl hym hpath
      by_cases hyi : y = i
      · exact hyi ▸ hpath
      · exact .trans (hgrow.mo_mono h.graph.wf (hfirst x i hx hi' y hy hyl hym hyi)) hpath
    rcases hgrow.lt_or_eq hj with hjlt | rfl
    · rw [hgrow.event_of_lt hjlt] at hjl hjm
      exact hgrow.mo_mono h.graph.wf (hfirst x i hx hi' j hjlt hjl hjm hne)
    · rw [hgrow.event_length] at hjl hjm
      subst hjl
      cases hrf : ev.getReadFromEvent with
      | some w =>
        -- a read-modify-write follows the event it reads from
        obtain ⟨hw, hwm, hwl⟩ := hgrow.readFrom w hrf
        exact hold w hw hwl hwm
          (.single (hgrow.id ▸ hgrow.mo_of_mem h.graph.wf (hgrow.rmw hjm w hrf).1))
      | none =>
        have hev : e.writingEvent op = some ev := by
          cases hperf with
          | write hev => exact hev
          | read hev hr =>
            simp [Graph.attemptEvent_getReadFromEvent _ _ hr.unresolved] at hrf
        obtain ⟨y, hy⟩ := exists_source_of_noBlindStore h hop hev hgrow
          (hi'.2.1 ▸ h.graph.registered i hilt (hi'.2.1.symm ▸ hx))
        obtain ⟨hylt, hym, hyl⟩ := h.graph.of_source hy
        exact hold y hylt hyl hym (hgrow.id ▸ (hgrow.of_source h.graph hy).1 hjm)
  · -- the new event is the first one of its location
    rcases hgrow.lt_or_eq hj with hjlt | rfl
    · exact absurd hjl (hi.2.2 j hjlt)
    · exact absurd rfl hne

/-- **Without blind stores initial values are first.** In every state reached by calls whose
stores are seq-cst or made by a thread that knows an event of the location: an event that happens
after another write of the location, or after a read of another write, does not read from the
registration. -/
theorem not_readFrom_registration {e : ExecutionGraph V} (h : Run NoBlindStore e) {x : ℤ}
    (hx : 0 ≤ x) {reg : ℕ} (hreg : e.graph.IsRegistration x reg) {i j : ℕ}
    (hi : i < e.graph.events.length) (hj : j < e.graph.events.length) (hne : i ≠ j)
    (hil : (e.graph.event i).location = x) (hjl : (e.graph.event j).location = x)
    (hhb : (e.graph.event i).happensBefore (e.graph.event j) = true)
    (hother : (e.graph.event i).modifies = true ∧ i ≠ reg ∨
      ∃ r, (e.graph.event i).getReadFromEvent = some r ∧ r ≠ reg) :
    (e.graph.event j).getReadFromEvent ≠ some reg := by
  intro hrf
  have hinv := h.reachable.inv.graph
  have hfirst : e.graph.RegistrationFirst :=
    Run.induction (Q := Graph.RegistrationFirst)
      (fun g n x i hx hi => by
        have hlt := g.length_events_reset n ▸ hi.1
        have := g.event_reset n hlt ▸ hi.2.1
        simp [Graph.dummyEvent] at this
        omega)
      (fun e op g' ev l hinv _ hop hperf hgrow hfirst =>
        registrationFirst_of_growth hinv hop hperf hgrow hfirst) h
  -- the other value `y` would lie both after and before the registration
  obtain ⟨y, hy, hyreg⟩ : ∃ y, ((e.graph.event i).modifies = true ∧ y = i ∨
      (e.graph.event i).getReadFromEvent = some y) ∧ y ≠ reg := by
    rcases hother with ⟨hm, hne'⟩ | ⟨r, hr, hne'⟩
    · exact ⟨i, .inl ⟨hm, rfl⟩, hne'⟩
    · exact ⟨r, .inr hr, hne'⟩
  obtain ⟨hylt, hym, hyl⟩ := hinv.of_source
    (show Graph.Source e.graph (e.graph.event j) y from .inr ⟨i, hi, hil.trans hjl.symm, hhb, hy⟩)
  have hback := ((hinv.coherent i j hi hj hne (hil.trans hjl.symm) hhb y hy).2 reg
    hrf).resolve_left hyreg
  exact hinv.acyclic y (hback.trans (hfirst x reg hx hreg y hylt (hyl.trans hjl) hym hyreg))

/-- Both threads know the location when they store to it: the load of thread `1` is past the
initial value. -/
def knownStore : ExecutionGraph (BitVec 32) :=
  play NoBlindStore {} [.reset 2, .registerLocation 0, .load 0 1 .relaxed [2],
    .store 0 1 .relaxed 1, .load 0 1 .relaxed [2, 4]]

theorem not_readFrom_registration_knownStore :
    knownStore.graph.events.length = 6 ∧ (knownStore.graph.event 5).getReadFromEvent ≠ some 2 :=
  ⟨by decide +kernel,
    not_readFrom_registration (run_play .init _) (e := knownStore) (x := 0) (i := 4)
      (j := 5) (by decide) (by decide +kernel) (by decide +kernel) (by decide +kernel)
      (by decide) (by decide +kernel) (by decide +kernel) (by decide +kernel)
      (.inl (by decide +kernel))⟩

end ExecutionGraph

end Wmm

end LTest
