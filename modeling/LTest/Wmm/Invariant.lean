import LTest.Wmm.Growth

/-!
# The invariant of the execution graph

A growth step keeps the graph settled, keeps its modification order typed and coherent, and keeps
it accepted by the consistency test.

## Main definitions

* `Graph.Coherent` — the four coherence laws, as paths of modification-order edges
* `Graph.Inv` — the invariant of a graph between two operations

## Main results

* `Graph.Growth.coherent` — the rules look at most recent events only and lose nothing by it
* `Graph.Growth.consistent_of_write` — a store needs no consistency test
* `Graph.Growth.inv`, `Graph.inv_reset` — the invariant is kept
* `Graph.Inv.acyclic` — there is no cycle in the modification order
-/

namespace LTest

namespace Wmm

namespace Graph

open Adjacency Relation

variable {V : Type}

/-- For two distinct events of a location, the first of which happens before the second: what the
first writes or reads from comes before what the second writes, and is not after what the second
reads from. -/
def Coherent (g : Graph V) : Prop :=
  ∀ i j, i < g.events.length → j < g.events.length → i ≠ j →
    (g.event i).location = (g.event j).location →
    (g.event i).happensBefore (g.event j) = true →
    ∀ x, ((g.event i).modifies = true ∧ x = i ∨ (g.event i).getReadFromEvent = some x) →
      ((g.event j).modifies = true → TransGen g.Mo x j) ∧
      ∀ w, (g.event j).getReadFromEvent = some w → x = w ∨ TransGen g.Mo x w

/-- The invariant of a graph between two operations. -/
structure Inv (g : Graph V) : Prop extends Settled g where
  /-- The modification order is between writes of one location. -/
  typed : ∀ a b, g.Mo a b → (g.event a).modifies = true ∧ (g.event b).modifies = true ∧
    (g.event a).location = (g.event b).location ∧ a ≠ b
  /-- A read-modify-write is after the write it reads. -/
  rmw : ∀ i < g.events.length, (g.event i).modifies = true →
    ∀ w, (g.event i).getReadFromEvent = some w → g.Mo w i
  /-- The graph is coherent. -/
  coherent : g.Coherent
  /-- It passes the consistency test. -/
  consistent : g.isConsistent = true

/-! ### The consistency test -/

variable {g : Graph V} {i : ℕ} {x : ℕ}

theorem WellFormed.edge_iff (h : g.WellFormed) {a b : ℕ} :
    DepthFirst.Edge g.moSuccessors a b ↔ g.Mo a b :=
  h.indexed.mem_moSuccessors

/-- What the consistency test answers, as long as edges end in events. -/
theorem isConsistent_iff_accepts
    (hsub : ∀ v, ∀ s ∈ g.moSuccessors v, s ∈ List.range g.events.length) :
    g.isConsistent = true ↔
      DepthFirst.Accepts g.moSuccessors (DepthFirst.init (List.range g.events.length)) := by
  rw [← DepthFirst.run_init_iff hsub, isConsistent]
  obtain ⟨r, hr⟩ := DepthFirst.exists_run_init hsub
  simp [hr]

theorem WellFormed.isConsistent_iff (h : g.WellFormed) :
    g.isConsistent = true ↔
      DepthFirst.Accepts g.moSuccessors (DepthFirst.init (List.range g.events.length)) :=
  isConsistent_iff_accepts fun _ _ hs => List.mem_range.mpr (h.lt_of_mem hs).2

theorem WellFormed.acyclic (h : g.WellFormed) (hc : g.isConsistent = true) (v : ℕ) :
    ¬ TransGen g.Mo v v := by
  intro hcycle
  obtain ⟨u, hu, -⟩ := TransGen.head'_iff.mp hcycle
  refine DepthFirst.acyclic_of_accepts (h.isConsistent_iff.mp hc)
    (List.mem_range.mpr (h.mo_lt v u hu).1) (TransGen.mono (fun a b hab => ?_) v v hcycle)
  exact h.edge_iff.mpr hab

theorem Inv.acyclic (h : g.Inv) (v : ℕ) : ¬ TransGen g.Mo v v :=
  h.wf.acyclic h.consistent v

/-- What was written or read from in the past of an event that modifies the location is that
event or comes before it. -/
theorem Inv.eq_or_transGen (hg : g.Inv) {j : ℕ} (hi : i < g.events.length)
    (hj : j < g.events.length) (hloc : (g.event i).location = (g.event j).location)
    (hhb : (g.event i).happensBefore (g.event j) = true) (hm : (g.event j).modifies = true)
    (hx : (g.event i).modifies = true ∧ x = i ∨ (g.event i).getReadFromEvent = some x) :
    x = j ∨ TransGen g.Mo x j := by
  by_cases hij : i = j
  · subst hij
    exact hx.imp And.right fun hr => .single (hg.rmw i hi hm x hr)
  · exact .inr ((hg.coherent i j hi hj hij hloc hhb x hx).1 hm)

/-! ### One step -/

/-- A source is an event of the location, and one that modifies it. -/
theorem Settled.of_source (h : g.Settled) {ev : Event V} (hx : Source g ev x) :
    x < g.events.length ∧ (g.event x).modifies = true ∧ (g.event x).location = ev.location := by
  rcases hx with ⟨-, hlast⟩ | ⟨i, hi, hloc, -, ⟨hm, rfl⟩ | hr⟩
  · exact h.last _ _ hlast
  · exact ⟨hi, hm, hloc⟩
  · obtain ⟨hlt, hm, hl⟩ := h.readFrom i hi x hr
    exact ⟨by omega, hm, hl.trans hloc⟩

/-- What covers an event of the thread is that event or happens after it. -/
theorem Covers.eq_or_happensBefore {j : ℕ} (hc : Covers g i j) (hg : g.Settled) :
    i = j ∨ i ≠ j ∧ (g.event i).happensBefore (g.event j) = true := by
  rcases Nat.lt_or_eq_of_le hc.le with hlt | rfl
  · exact .inr ⟨by omega, hg.clock_mono i j hc.le hc.lt hc.thread.symm⟩
  · exact .inl rfl

namespace Growth

variable {g g' : Graph V} {ev : Event V} {l : List (ℕ × ℕ)}

section

variable (h : Growth g g' ev l)
include h

theorem length : g'.events.length = g.events.length + 1 := by
  simp [h.events]

theorem event_length : g'.event g.events.length = ev := by
  simp [event, h.events]

theorem lt_or_eq (hi : i < g'.events.length) : i < g.events.length ∨ i = g.events.length := by
  rw [h.length] at hi
  omega

/-- Old events stay, and the new one is `ev`. -/
theorem forall_event {P : ℕ → Event V → Prop} (hold : ∀ i < g.events.length, P i (g.event i))
    (hnew : P g.events.length ev) : ∀ i < g'.events.length, P i (g'.event i) := by
  intro i hi
  rcases h.lt_or_eq hi with hi | rfl
  · rw [h.event_of_lt hi]; exact hold i hi
  · rw [h.event_length]; exact hnew

theorem mo_iff (hg : g.WellFormed) {a b : ℕ} : g'.Mo a b ↔ g.Mo a b ∨ (a, b) ∈ l := by
  rw [← h.indexed.mem_moSuccessors, h.mo, mem_insertEdges, hg.indexed.mem_moSuccessors]

theorem mo_mono (hg : g.WellFormed) {a b : ℕ} (hab : TransGen g.Mo a b) : TransGen g'.Mo a b :=
  TransGen.mono (fun _ _ hm => (h.mo_iff hg).mpr (.inl hm)) a b hab

theorem mo_of_mem (hg : g.WellFormed) {a b : ℕ} (hab : (a, b) ∈ l) : g'.Mo a b :=
  (h.mo_iff hg).mpr (.inr hab)

theorem not_happensBefore (hi : i < g.events.length) :
    ev.happensBefore (g.event i) ≠ true := fun hb => by
  have := Event.happensBefore_iff.mp hb ev.threadId
  have := h.clock.fresh i hi
  omega

/-- Both ends of a new edge modify the location of the new event, and they are distinct. -/
theorem typed_of_mem (hg : g.Inv) {y : ℕ} (hxy : (x, y) ∈ l) :
    ((g'.event x).modifies = true ∧ (g'.event x).location = ev.location ∧
      x < g'.events.length) ∧
    ((g'.event y).modifies = true ∧ (g'.event y).location = ev.location ∧
      y < g'.events.length) ∧ x ≠ y := by
  have hsrc : ∀ {x}, Source g ev x → ((g'.event x).modifies = true ∧
      (g'.event x).location = ev.location ∧ x < g'.events.length) ∧ x < g.events.length := by
    intro x hx
    obtain ⟨hlt, hm, hl⟩ := hg.of_source hx
    rw [h.event_of_lt hlt, h.length]
    exact ⟨⟨hm, hl, by omega⟩, hlt⟩
  have hrf : ∀ {w}, ev.getReadFromEvent = some w → ((g'.event w).modifies = true ∧
      (g'.event w).location = ev.location ∧ w < g'.events.length) ∧ w < g.events.length := by
    intro w hw
    obtain ⟨hlt, hm, hl⟩ := h.readFrom w hw
    rw [h.event_of_lt hlt, h.length]
    exact ⟨⟨hm, hl, by omega⟩, hlt⟩
  have hnew : ev.modifies = true → (g'.event ev.id).modifies = true ∧
      (g'.event ev.id).location = ev.location ∧ ev.id < g'.events.length := by
    intro hm
    rw [h.id, h.event_length, h.length]
    exact ⟨hm, rfl, by omega⟩
  have hid := h.id
  rcases h.sound x y hxy with ⟨w, hw, rfl, hne, hx⟩ | ⟨hm, rfl, hx⟩ | ⟨hm, rfl, w, hw, hy⟩
  · exact ⟨(hsrc hx).1, (hrf hw).1, hne⟩
  · have hx' : _ ∧ x < g.events.length := hx.elim hsrc hrf
    exact ⟨hx'.1, hnew hm, by omega⟩
  · -- an atomicity edge
    have hmo := hg.wf.indexed.mem_moSuccessors.mp hy
    obtain ⟨-, hym, hyl, -⟩ := hg.typed w y hmo
    have hylt := (hg.wf.mo_lt w y hmo).2
    obtain ⟨-, -, hwl⟩ := h.readFrom w hw
    refine ⟨hnew hm, ?_, by omega⟩
    rw [h.event_of_lt hylt, h.length]
    exact ⟨hym, hyl.symm.trans hwl, by omega⟩

theorem wellFormed (hg : g.Inv) : g'.WellFormed where
  indexed := h.indexed
  inSnapshotMode := h.mode
  snapshotEdges := h.snapshotEdges_eq_nil
  mo_lt a b hab := by
    rcases (h.mo_iff hg.wf).mp hab with hab | hab
    · have := hg.wf.mo_lt a b hab
      rw [h.length]
      omega
    · obtain ⟨⟨-, -, ha⟩, ⟨-, -, hb⟩, -⟩ := h.typed_of_mem hg hab
      exact ⟨ha, hb⟩
  event_id := h.forall_event (P := fun i e => e.id = i) hg.wf.event_id h.id
  thread_lt := by
    rw [h.nThreads]
    exact h.forall_event (P := fun _ e => e.threadId < g.nThreads) hg.wf.thread_lt h.thread_lt
  eventsPerThread_eq t := by
    have hold : (List.range g.events.length).filter (fun i => (g'.event i).threadId = t) =
        g.eventsPerThread t := by
      rw [hg.wf.eventsPerThread_eq]
      exact List.filter_congr fun i hi => by rw [h.event_of_lt (List.mem_range.mp hi)]
    rw [h.length, List.range_succ, List.filter_append, hold, List.filter_singleton,
      h.event_length, h.eventsPerThread]
    by_cases ht : ev.threadId = t
    · subst ht; simp
    · simp [ht, Ne.symm ht]
  eventsPerThread_ne t ht := by
    rw [h.nThreads] at ht
    rw [h.eventsPerThread]
    by_cases hte : t = ev.threadId
    · subst hte; simp
    · rw [Function.update_of_ne hte]
      exact hg.wf.eventsPerThread_ne t ht

theorem exists_readFrom : ev.isReadOrRMW = true → ∃ w, ev.getReadFromEvent = some w := by
  intro hr
  rcases h.kind with ⟨-, hn⟩ | hw
  · simp [hr] at hn
  · exact hw

theorem settled (hg : g.Inv) : g'.Settled where
  wf := h.wellFormed hg
  clock_length := by
    rw [h.nThreads]
    exact h.forall_event (P := fun _ e => e.clock.times.length = g.nThreads) hg.clock_length
      h.clock.length
  clock_mono i j hij hj ht := by
    rcases h.lt_or_eq hj with hj | rfl
    · rw [h.event_of_lt hj, h.event_of_lt (by omega)] at ht ⊢
      exact hg.clock_mono i j hij hj ht
    · rw [h.event_length] at ht ⊢
      rcases Nat.lt_or_eq_of_le hij with hlt | rfl
      · rw [h.event_of_lt hlt] at ht ⊢
        exact Event.happensBefore_iff.mpr (h.clock.thread i hlt ht)
      · rw [h.event_length]
        exact Event.happensBefore_iff.mpr fun _ => Nat.le_refl _
  clock_bound := by
    have hlt : g.events.length < g'.events.length := by rw [h.length]; omega
    rw [h.nThreads]
    refine h.forall_event (P := fun _ e => ∀ t < g.nThreads, ∃ j < g'.events.length,
      (g'.event j).threadId = t ∧ e.clock.time t ≤ (g'.event j).clock.time t)
      (fun i hi t ht => ?_) fun t ht => ?_
    · obtain ⟨j, hj, hjt, hle⟩ := hg.clock_bound i hi t ht
      exact ⟨j, by omega, by rw [h.event_of_lt hj]; exact ⟨hjt, hle⟩⟩
    · by_cases hte : t = ev.threadId
      · exact ⟨g.events.length, hlt, by rw [h.event_length]; exact ⟨hte.symm, Nat.le_refl _⟩⟩
      · obtain ⟨i, hi, hle⟩ := h.clock.bound t ht hte
        obtain ⟨j, hj, hjt, hle'⟩ := hg.clock_bound i hi t ht
        refine ⟨j, by omega, ?_⟩
        rw [h.event_of_lt hj]
        exact ⟨hjt, Nat.le_trans hle hle'⟩
  clock_exact i hi j hj hown := by
    rcases h.lt_or_eq hi with hi | rfl <;> rcases h.lt_or_eq hj with hj | rfl
    · rw [h.event_of_lt hi, h.event_of_lt hj] at hown ⊢
      exact hg.clock_exact i hi j hj hown
    · rw [h.event_of_lt hi, h.event_length] at hown ⊢
      exact Event.happensBefore_iff.mpr (h.clock.exact i hi hown)
    · rw [h.event_length, h.event_of_lt hj] at hown
      have := h.clock.fresh j hj
      omega
    · exact Event.happensBefore_iff.mpr fun _ => Nat.le_refl _
  resolved := h.forall_event (P := fun _ e => e.isReadOrRMW = true →
    ∃ w, e.getReadFromEvent = some w) hg.resolved h.exists_readFrom
  readFrom := by
    refine h.forall_event (P := fun i e => ∀ w, e.getReadFromEvent = some w →
      w < i ∧ (g'.event w).modifies = true ∧ (g'.event w).location = e.location)
      (fun i hi w hw => ?_) fun w hw => ?_
    · obtain ⟨hlt, hm, hl⟩ := hg.readFrom i hi w hw
      rw [h.event_of_lt (by omega)]
      exact ⟨hlt, hm, hl⟩
    · obtain ⟨hlt, hm, hl⟩ := h.readFrom w hw
      rw [h.event_of_lt hlt]
      exact ⟨hlt, hm, hl⟩
  kind := h.forall_event (P := fun _ e => 0 ≤ e.location → e.modifies = true ∨
    ∃ w, e.getReadFromEvent = some w) hg.kind fun _ => h.kind.imp_left And.left
  last x w hw := by
    have hold : g.lastSeqCstWriteEvents x = some w →
        w < g'.events.length ∧ (g'.event w).modifies = true ∧ (g'.event w).location = x := by
      intro hw
      obtain ⟨hlt, hm, hl⟩ := hg.last x w hw
      rw [h.event_of_lt hlt, h.length]
      exact ⟨by omega, hm, hl⟩
    rw [h.last, lastAfter] at hw
    split at hw
    · split at hw
      · rename_i hm _
        by_cases hx : x = ev.location
        · subst hx
          rw [Function.update_self] at hw
          obtain rfl : ev.id = w := Option.some.inj hw
          rw [h.id, h.event_length, h.length]
          exact ⟨by omega, hm, rfl⟩
        · rw [Function.update_of_ne hx] at hw
          exact hold hw
      · exact hold hw
    · exact hold hw
  registered := by
    have hkeep : ∀ x, g.lastSeqCstWriteEvents x ≠ none → g'.lastSeqCstWriteEvents x ≠ none := by
      intro x hx
      rw [h.last, lastAfter]
      split
      · split
        · by_cases hxe : x = ev.location
          · subst hxe; simp
          · rwa [Function.update_of_ne hxe]
        · exact hx
      · exact hx
    refine h.forall_event (P := fun _ e => 0 ≤ e.location →
      g'.lastSeqCstWriteEvents e.location ≠ none)
      (fun i hi hpos => hkeep _ (hg.registered i hi hpos)) fun _ => ?_
    rcases h.registered with hreg | ⟨hm, hsc⟩
    · exact hkeep _ hreg
    · simp [h.last, lastAfter, hm, hsc]

theorem typed (hg : g.Inv) (a b : ℕ) (hab : g'.Mo a b) :
    (g'.event a).modifies = true ∧ (g'.event b).modifies = true ∧
      (g'.event a).location = (g'.event b).location ∧ a ≠ b := by
  rcases (h.mo_iff hg.wf).mp hab with hab | hab
  · obtain ⟨ha, hb⟩ := hg.wf.mo_lt a b hab
    rw [h.event_of_lt ha, h.event_of_lt hb]
    exact hg.typed a b hab
  · obtain ⟨⟨ha, hal, -⟩, ⟨hb, hbl, -⟩, hne⟩ := h.typed_of_mem hg hab
    exact ⟨ha, hb, hal.trans hbl.symm, hne⟩

theorem mo_readFrom (hg : g.Inv) :
    ∀ i < g'.events.length, (g'.event i).modifies = true →
      ∀ w, (g'.event i).getReadFromEvent = some w → g'.Mo w i := by
  refine h.forall_event (P := fun i e => e.modifies = true →
    ∀ w, e.getReadFromEvent = some w → g'.Mo w i) (fun i hi hm w hw => ?_) fun hm w hw => ?_
  · exact (h.mo_iff hg.wf).mpr (.inl (hg.rmw i hi hm w hw))
  · exact h.id ▸ h.mo_of_mem hg.wf (h.rmw hm w hw).1

/-- **Most recent events are enough.** What a source of the new event writes or reads from comes
before the new event if that modifies, and is not after the event it reads from. The search stops
at the most recent event of each thread; the older ones are ordered before it already. -/
theorem source_coherent (hg : g.Inv) (hi : i < g.events.length)
    (hloc : (g.event i).location = ev.location) (hhb : (g.event i).happensBefore ev = true)
    (hx : (g.event i).modifies = true ∧ x = i ∨ (g.event i).getReadFromEvent = some x) :
    (ev.modifies = true → TransGen g'.Mo x ev.id) ∧
      ∀ w, ev.getReadFromEvent = some w → x = w ∨ TransGen g'.Mo x w := by
  have hmem : ∀ {a b}, (a, b) ∈ l → TransGen g'.Mo a b := fun hab =>
    .single (h.mo_of_mem hg.wf hab)
  -- from `x` to what the covering event `j` contributes, and on by the edge that was drawn
  have hwrite : ∀ {j y}, x = i → (g.event i).modifies = true → Covers g i j →
      (g.event j).modifies = true → (j, y) ∈ l → TransGen g'.Mo x y := by
    rintro j y rfl hm hc hmj hjy
    rcases hc.eq_or_happensBefore hg.toSettled with rfl | ⟨hne, hij⟩
    · exact hmem hjy
    · exact .trans (h.mo_mono hg.wf ((hg.coherent x j hi hc.lt hne hc.location.symm hij x
        (.inl ⟨hm, rfl⟩)).1 hmj)) (hmem hjy)
  have hread : ∀ {j r y}, (g.event i).getReadFromEvent = some x → Covers g i j →
      (g.event j).getReadFromEvent = some r → (r, y) ∈ l → TransGen g'.Mo x y := by
    intro j r y hxr hc hjr hry
    rcases hc.eq_or_happensBefore hg.toSettled with rfl | ⟨hne, hij⟩
    · obtain rfl : x = r := Option.some.inj (hxr.symm.trans hjr)
      exact hmem hry
    · rcases (hg.coherent i j hi hc.lt hne hc.location.symm hij x (.inr hxr)).2 r hjr with rfl | hp
      · exact hmem hry
      · exact .trans (h.mo_mono hg.wf hp) (hmem hry)
  rcases hx with ⟨hm, rfl⟩ | hxr
  · refine ⟨fun hev => ?_, fun w hw => ?_⟩
    · obtain ⟨j, hc, hmj, hj⟩ := h.cover_writeWrite hev x hi hloc hhb hm
      exact hwrite rfl hm hc hmj hj
    · by_cases hxw : x = w
      · exact .inl hxw
      · obtain ⟨j, hc, hmj, hj⟩ := h.cover_writeRead w hw x hi hloc hhb hm hxw
        exact .inr (hwrite rfl hm hc hmj hj)
  · refine ⟨fun hev => ?_, fun w hw => ?_⟩
    · obtain ⟨j, r, hc, hjr, hj⟩ := h.cover_readWrite hev i hi hloc hhb x hxr
      exact hread hxr hc hjr hj
    · by_cases hxw : x = w
      · exact .inl hxw
      · by_cases hiw : i = w
        · -- the rule skips `w` itself, which follows what it reads from
          subst hiw
          exact .inr (.single ((h.mo_iff hg.wf).mpr
            (.inl (hg.rmw i hi (h.readFrom i hw).2.1 x hxr))))
        · obtain ⟨j, r, hc, hjr, hj⟩ := h.cover_readRead w hw i hi hloc hhb hiw x hxr hxw
          exact .inr (hread hxr hc hjr hj)

/-- All sources, the last seq-cst write included. -/
theorem of_source (hg : g.Inv) (hx : Source g ev x) :
    (ev.modifies = true → TransGen g'.Mo x ev.id) ∧
      ∀ w, ev.getReadFromEvent = some w → x = w ∨ TransGen g'.Mo x w := by
  rcases hx with ⟨hsc, hlast⟩ | ⟨i, hi, hloc, hhb, hx⟩
  · refine ⟨fun hm => .single (h.mo_of_mem hg.wf (h.seqCst_write hm hsc x hlast)), fun w hw => ?_⟩
    exact (h.seqCst_read w hw hsc x hlast).imp_right fun hxw => .single (h.mo_of_mem hg.wf hxw)
  · exact h.source_coherent hg hi hloc hhb hx

theorem coherent (hg : g.Inv) : g'.Coherent := by
  intro i j hi hj hne hloc hhb x hx
  rcases h.lt_or_eq hi with hi | rfl
  · rw [h.event_of_lt hi] at hloc hhb hx
    rcases h.lt_or_eq hj with hj | rfl
    · rw [h.event_of_lt hj] at hloc hhb ⊢
      obtain ⟨hw, hr⟩ := hg.coherent i j hi hj hne hloc hhb x hx
      exact ⟨fun hm => h.mo_mono hg.wf (hw hm),
        fun w hw' => (hr w hw').imp_right (h.mo_mono hg.wf)⟩
    · rw [h.event_length] at hloc hhb ⊢
      obtain ⟨hw, hr⟩ := h.source_coherent hg hi hloc hhb hx
      exact ⟨fun hm => h.id ▸ hw hm, hr⟩
  · rcases h.lt_or_eq hj with hj | rfl
    · rw [h.event_length, h.event_of_lt hj] at hhb
      exact absurd hhb (h.not_happensBefore hj)
    · exact absurd rfl hne

/-! The new event is not in the old modification order. -/

theorem id_mem_range : ev.id ∈ List.range g'.events.length := by
  rw [List.mem_range, h.length, h.id]
  omega

theorem mem_range_of_mem (hg : g.Inv) (v : ℕ) :
    ∀ s ∈ g.moSuccessors v, s ∈ List.range g'.events.length := by
  intro s hs
  have := (hg.wf.lt_of_mem hs).2
  rw [List.mem_range, h.length]
  omega

theorem moSuccessors_id (hg : g.Inv) : g.moSuccessors ev.id = [] := by
  refine List.eq_nil_iff_forall_not_mem.mpr fun s hs => ?_
  have := (hg.wf.lt_of_mem hs).1
  have := h.id
  omega

theorem id_notMem (hg : g.Inv) (v : ℕ) : ev.id ∉ g.moSuccessors v := by
  intro hs
  have := (hg.wf.lt_of_mem hs).2
  have := h.id
  omega

/-- The old modification order passes the test with the new event as a further root. -/
theorem accepts_range (hg : g.Inv) :
    DepthFirst.Accepts g.moSuccessors (DepthFirst.init (List.range g'.events.length)) := by
  have hsink := h.moSuccessors_id hg
  rw [h.id] at hsink
  rw [h.length, List.range_succ]
  exact DepthFirst.accepts_concat hsink (hg.wf.isConsistent_iff.mp hg.consistent)

/-- **A store needs no consistency test**: all its edges lead to the new event, which has no
successors yet. -/
theorem consistent_of_write (hg : g.Inv) (hrf : ev.getReadFromEvent = none) :
    g'.isConsistent = true := by
  have hwf := h.wellFormed hg
  have hall : ∀ p ∈ l, p.2 = ev.id := by
    rintro ⟨x, y⟩ hxy
    rcases h.sound x y hxy with ⟨w, hw, -⟩ | ⟨-, hy, -⟩ | ⟨-, -, w, hw, -⟩
    · simp [hrf] at hw
    · exact hy
    · simp [hrf] at hw
  have hl : l = (l.map Prod.fst).map (·, ev.id) := by
    rw [List.map_map]
    conv_lhs => rw [← List.map_id l]
    exact List.map_congr_left fun p hp => Prod.ext rfl (hall p hp)
  rw [hwf.isConsistent_iff, h.mo, hl, insertEdges_eq_insertSink]
  refine DepthFirst.accepts_insertSink (h.mem_range_of_mem hg) h.id_mem_range
    (h.moSuccessors_id hg) ?_ (h.accepts_range hg)
    (DepthFirst.avoids_of_forall_not_mem (h.id_notMem hg) _ _)
  · intro hmem
    obtain ⟨p, hp, hpe⟩ := List.mem_map.mp hmem
    exact (h.typed_of_mem hg (x := p.1) (y := p.2) hp).2.2 (hpe.trans (hall p hp).symm)

/-- **A growth step keeps the invariant**, if an event that reads was accepted. -/
theorem inv (hg : g.Inv) (hcons : ev.getReadFromEvent ≠ none → g'.isConsistent = true) :
    g'.Inv where
  toSettled := h.settled hg
  typed := h.typed hg
  rmw := h.mo_readFrom hg
  coherent := h.coherent hg
  consistent := by
    by_cases hrf : ev.getReadFromEvent = none
    · exact h.consistent_of_write hg hrf
    · exact hcons hrf

end

end Growth

/-! ### Reset -/

section Reset

variable (g : Graph V) (n : ℕ)

theorem length_events_reset : (g.reset n).events.length = n := by simp [reset]

theorem event_reset (hi : i < n) : (g.reset n).event i = dummyEvent n i := by
  simp [event, reset, hi]

theorem mo_reset {a b : ℕ} : ¬ (g.reset n).Mo a b := by
  rintro ⟨e, he, -⟩
  simp [reset] at he

variable {g}

theorem wellFormed_reset (hm : g.inSnapshotMode = false) (hs : g.snapshotEdges = []) :
    (g.reset n).WellFormed where
  indexed := indexed_reset g n
  mo_lt a b hab := absurd hab (mo_reset g n)
  event_id i hi := by
    rw [length_events_reset] at hi
    rw [event_reset g n hi]
    rfl
  thread_lt i hi := by
    rw [length_events_reset] at hi
    rw [event_reset g n hi]
    exact hi
  eventsPerThread_eq t := by
    have hfilter : (List.range n).filter (fun i => ((g.reset n).event i).threadId = t) =
        (List.range n).filter (fun i => i = t) :=
      List.filter_congr fun i hi => by rw [event_reset g n (List.mem_range.mp hi)]; rfl
    rw [length_events_reset, hfilter]
    change (if t < n then [t] else []) = _
    by_cases ht : t < n
    · simp [List.filter_eq, List.count_range, ht]
    · simp only [ht, if_false]
      exact (List.filter_eq_nil_iff.mpr fun i hi => by
        have := List.mem_range.mp hi
        simp only [decide_eq_true_eq]
        omega).symm
  eventsPerThread_ne t ht := by
    change (if t < n then [t] else []) ≠ []
    have ht : t < n := ht
    simp [ht]
  inSnapshotMode := hm
  snapshotEdges := hs

/-- **A reset graph satisfies the invariant.** -/
theorem inv_reset (hm : g.inSnapshotMode = false) (hs : g.snapshotEdges = []) :
    (g.reset n).Inv := by
  have hlen := length_events_reset g n
  have hzero : ∀ i < (g.reset n).events.length, (g.reset n).event i = dummyEvent n i :=
    fun i hi => event_reset g n (hlen ▸ hi)
  have hhb : ∀ i < (g.reset n).events.length, ∀ e : Event V,
      ((g.reset n).event i).happensBefore e = true := by
    intro i hi e
    rw [hzero i hi]
    exact Event.happensBefore_iff.mpr fun t => by simp [dummyEvent]
  refine
    { wf := wellFormed_reset n hm hs
      clock_length := fun i hi => by rw [hzero i hi]; simp [dummyEvent, reset]
      clock_mono := fun i j hij hj _ => hhb i (by omega) _
      clock_bound := fun i hi t ht => ⟨t, by rw [hlen]; exact ht, ?_⟩
      clock_exact := fun i hi j hj _ => hhb i hi _
      resolved := fun i hi hr => by rw [hzero i hi] at hr; simp [dummyEvent, Event.isReadOrRMW,
        Event.isRead, Event.isRMW, Event.type] at hr
      readFrom := fun i hi w hw => by
        rw [hzero i hi] at hw; simp [dummyEvent, Event.getReadFromEvent] at hw
      kind := fun i hi hpos => by rw [hzero i hi] at hpos; simp [dummyEvent] at hpos
      last := fun x w hw => by simp [reset] at hw
      registered := fun i hi hpos => by rw [hzero i hi] at hpos; simp [dummyEvent] at hpos
      typed := fun a b hab => absurd hab (mo_reset g n)
      rmw := fun i hi hm => by rw [hzero i hi] at hm; simp [dummyEvent, Event.modifies,
        Event.isWrite, Event.isModifyRMW, Event.type] at hm
      coherent := fun i j hi _ _ _ _ x hx => by
        rw [hzero i hi] at hx
        simp [dummyEvent, Event.modifies, Event.isWrite, Event.isModifyRMW, Event.type,
          Event.getReadFromEvent] at hx
      consistent := ?_ }
  · have ht : t < n := ht
    rw [hzero i hi, event_reset g n ht]
    exact ⟨rfl, by simp [dummyEvent]⟩
  · rw [(wellFormed_reset n hm hs).isConsistent_iff]
    exact DepthFirst.accepts_of_forall_nil (fun v => by simp [moSuccessors, reset]) _

end Reset

end Graph

end Wmm

end LTest
