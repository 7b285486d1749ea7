import LTest.Wmm.RaceFree

/-!
# Seq-cst programs see plain atomics

If every call is seq-cst, so is every event that modifies a location: also the writes that register
locations are. Then no two accesses race, and the execution graph refines a memory that holds one
value for each location.

## Main definitions

* `Op.IsSeqCst` — a call with seq-cst orders only
* `Graph.SeqCstWrites` — what modifies is seq-cst

## Main results

* `ExecutionGraph.Reflects.raceFree` — a seq-cst call does not race
* `ExecutionGraph.execAll_of_isSeqCst` — any sequence of calls returns what the memory returns
-/

namespace LTest

namespace Wmm

variable {V : Type}

/-- All memory orders of the call are seq-cst. -/
def Op.IsSeqCst : Op V → Prop
  | .load _ _ order _ => order = .seqCst
  | .store _ _ order _ => order = .seqCst
  | .readModifyWrite _ _ _ _ success failure _ => success = .seqCst ∧ failure = .seqCst
  | .unconditionalReadModifyWrite _ _ _ _ order _ => order = .seqCst
  | _ => True

instance (op : Op V) : Decidable op.IsSeqCst :=
  match op with
  | .load .. | .store .. | .unconditionalReadModifyWrite .. => inferInstanceAs (Decidable (_ = _))
  | .readModifyWrite .. => inferInstanceAs (Decidable (_ ∧ _))
  | .reset _ | .registerLocation _ => inferInstanceAs (Decidable True)

/-- What modifies is seq-cst. -/
def Graph.SeqCstWrites (g : Graph V) : Prop :=
  ∀ i < g.events.length, (g.event i).modifies = true → (g.event i).isSeqCst = true

namespace ExecutionGraph

variable [DecidableEq V] [Inhabited V] [AtomicOps V] {e e' : ExecutionGraph V} {m : Memory V}
  {op : Op V} {r : Ret V}

theorem Performs.isSeqCst {ev : Event V} (h : Performs e op ev) (hsc : op.IsSeqCst) :
    ev.isSeqCst = true := by
  cases h with
  | write hev =>
    cases op with
    | registerLocation v =>
      obtain rfl := Option.some.inj hev
      obtain ⟨c, hc⟩ := Graph.exists_storeEvent e.graph e.nextLocationId initThreadId .seqCst v
      rw [hc]
      rfl
    | store x t o v =>
      obtain rfl : o = .seqCst := hsc
      obtain rfl := Option.some.inj hev
      obtain ⟨c, hc⟩ := Graph.exists_storeEvent e.graph x t .seqCst v
      rw [hc]
      rfl
    | _ => cases hev
  | @read ev ev₁ w hev hretry =>
    obtain ⟨c, hc⟩ := hretry.exists_attemptEvent w
    rw [hc, Graph.fresh, Event.setReadFrom_setClock]
    cases op with
    | load x t o cs =>
      obtain rfl : o = .seqCst := hsc
      obtain rfl := Option.some.inj hev
      rfl
    | readModifyWrite x t a b s f cs =>
      obtain ⟨rfl, rfl⟩ : s = .seqCst ∧ f = .seqCst := hsc
      obtain rfl := Option.some.inj hev
      by_cases hv : (e.graph.event w).getWrittenValue = a <;>
        simp [Event.isSeqCst, Event.memoryOrder, Event.setReadFrom, Graph.casEvent, hv]
    | unconditionalReadModifyWrite x t f a o cs =>
      obtain rfl : o = .seqCst := hsc
      obtain rfl := Option.some.inj hev
      rfl
    | _ => cases hev

omit [DecidableEq V] [Inhabited V] [AtomicOps V] in
theorem seqCstWrites_reset (g : Graph V) (n : ℕ) : (g.reset n).SeqCstWrites := by
  intro i hi hm
  rw [Graph.length_events_reset] at hi
  rw [Graph.event_reset g n hi] at hm
  cases hm

theorem seqCstWrites_exec (h : e.graph.SeqCstWrites) (hinv : e.Inv) (hen : e.Enabled op)
    (hsc : op.IsSeqCst) (hex : e.exec op = some (e', r)) : e'.graph.SeqCstWrites := by
  obtain ⟨n, -, rfl⟩ | ⟨ev, l, hev, hgrow, -⟩ := hinv.exec_cases hen hex
  · exact seqCstWrites_reset _ n
  · exact hgrow.forall_event (P := fun _ e => e.modifies = true → e.isSeqCst = true) h
      fun _ => hev.isSeqCst hsc

namespace Reflects

/-- **A seq-cst call does not race.** -/
theorem raceFree (h : e.Reflects m) (hwrites : e.graph.SeqCstWrites) (hinv : e.Inv)
    (hen : e.Enabled op) (hsc : op.IsSeqCst) : e.raceFree op = true := by
  unfold ExecutionGraph.raceFree
  split
  · rename_i x e' r hop hex
    have hx : x < e.nextLocationId := by
      cases op with
      | reset n => cases hop
      | registerLocation v => cases hop
      | store y t o v => exact Option.some.inj hop ▸ hen.1
      | _ => exact Option.some.inj hop ▸ hen.1.1
    obtain ⟨last, hlast, -⟩ := h.onTop x hx
    obtain ⟨n, rfl, -⟩ | ⟨ev, l, hev, hgrow, -⟩ := hinv.exec_cases hen hex
    · cases hop
    have hraces : e'.graph.races last e.graph.events.length = false := by
      rw [Graph.races_eq_false, hgrow.event_of_lt hlast.lt, hgrow.event_length]
      exact .inr ⟨hwrites last hlast.lt hlast.modifies, hev.isSeqCst hsc⟩
    rw [hlast.lastWrite, Option.all_some, hraces]
    rfl
  · rfl

theorem allRaceFree (h : e.Reflects m) (hwrites : e.graph.SeqCstWrites) (hinv : e.Inv)
    {ops : List (Op V)} (hen : e.AllEnabled ops) (hsc : ∀ op ∈ ops, op.IsSeqCst) :
    e.allRaceFree ops = true := by
  induction ops generalizing e m with
  | nil => rfl
  | cons op ops ih =>
    obtain ⟨hop, hrest⟩ := hen
    have hrace := h.raceFree hwrites hinv hop (hsc op List.mem_cons_self)
    obtain ⟨e', hex, hreflects⟩ := h.exec hinv hop hrace
    rw [hex] at hrest
    rw [ExecutionGraph.allRaceFree, hrace, hex, Bool.true_and]
    exact ih hreflects (seqCstWrites_exec hwrites hinv hop (hsc op List.mem_cons_self) hex)
      (hinv.exec hop hex) hrest fun op hmem => hsc op (List.mem_cons_of_mem _ hmem)

end Reflects

/-- **Seq-cst programs see plain atomics.** For every sequence of calls whose orders are all
seq-cst, with any threads, locations and shuffles: no assertion fails, and the calls return what a
sequentially consistent memory that executes them in this order returns. -/
theorem execAll_of_isSeqCst {ops : List (Op V)} (hen : ({} : ExecutionGraph V).AllEnabled ops)
    (hsc : ∀ op ∈ ops, op.IsSeqCst) :
    ∃ e, ({} : ExecutionGraph V).execAll ops = some (e, (({} : Memory V).execAll ops).2) := by
  have h : ({} : ExecutionGraph V).Reflects {} := Reflects.of_no_locations _ rfl
  have hwrites : ({} : ExecutionGraph V).graph.SeqCstWrites :=
    fun i hi => absurd hi (Nat.not_lt_zero i)
  exact h.execAll inv_init hen (h.allRaceFree hwrites inv_init hen hsc)

/-- Two threads exchange, compare and add; stale writes come first in the shuffles. -/
def seqCstCalls : List (Op (BitVec 32)) :=
  [.reset 2, .registerLocation 0, .store 0 1 .seqCst 5,
    .readModifyWrite 0 0 0 7 .seqCst .seqCst [2, 3],
    .unconditionalReadModifyWrite 0 1 .fetchAdd 1 .seqCst [2, 3], .load 0 0 .seqCst [3, 2, 5]]

theorem execAll_seqCstCalls :
    ∃ e, ({} : ExecutionGraph (BitVec 32)).execAll seqCstCalls =
      some (e, [.unit, .location 0, .unit, .rmw false 5 5, .value 5, .value 6]) := by
  have hen : ({} : ExecutionGraph (BitVec 32)).AllEnabled seqCstCalls := by decide +kernel
  exact execAll_of_isSeqCst hen (by decide)

end ExecutionGraph

end Wmm

end LTest
