import LTest.Wmm.Reachable

/-!
# Reads do not get stuck

The consistency test is stricter than acyclicity, so that a candidate without successors in the
modification order could still be rejected. But among the events the reading thread must not
overtake, and those that come after them, the one the scan finishes first can always be read: it
has no successors, and when the scan expands one of the others it is not in the stack.

## Main definitions

* `Graph.FirstTo` — the first edge drawn from a node
* `Graph.Bound` — an event that an attempt of the new event can be bound by
* `Graph.Above` — an event at or after such a one

## Main results

* `Graph.Growth.consistent_of_sink` — an attempt to read from a sink passes the test
* `ExecutionGraph.exists_exec_of_reachable` — an enabled reading call returns
-/

namespace LTest

namespace Wmm

open Adjacency Relation

variable {V : Type}

namespace Graph

/-! ### Reading from a sink -/

section Sink

variable {g g' : Graph V} {ev : Event V} {l : List (ℕ × ℕ)} {τ : ℕ} {x : ℕ}

/-- The first edge drawn from `x` goes to `τ`. -/
def FirstTo (l : List (ℕ × ℕ)) (x τ : ℕ) : Prop :=
  ∃ l₁ l₂, l = l₁ ++ (x, τ) :: l₂ ∧ ∀ p ∈ l₁, p.1 ≠ x

theorem FirstTo.append_left (h : FirstTo l x τ) {l₀ : List (ℕ × ℕ)} (hl₀ : ∀ p ∈ l₀, p.1 ≠ x) :
    FirstTo (l₀ ++ l) x τ := by
  obtain ⟨l₁, l₂, rfl, hl₁⟩ := h
  refine ⟨l₀ ++ l₁, l₂, by simp, fun p hp => ?_⟩
  exact (List.mem_append.mp hp).elim (hl₀ p) (hl₁ p)

theorem FirstTo.append_right (h : FirstTo l x τ) (l₀ : List (ℕ × ℕ)) : FirstTo (l ++ l₀) x τ := by
  obtain ⟨l₁, l₂, rfl, hl₁⟩ := h
  exact ⟨l₁, l₂ ++ l₀, by simp, hl₁⟩

/-- In a list of edges into `τ` only. -/
theorem firstTo_of_mem (hl : ∀ p ∈ l, p.2 = τ) (hx : (x, τ) ∈ l) : FirstTo l x τ := by
  obtain ⟨l₁, l₂, rfl, hnot⟩ := List.eq_append_cons_of_mem hx
  refine ⟨l₁, l₂, rfl, fun p hp hpx => hnot ?_⟩
  have hpτ := hl p (List.mem_append_left _ hp)
  exact (Prod.ext hpx hpτ : p = (x, τ)) ▸ hp

/-- Every edge of an attempt to read from a sink goes to the sink or to the new event. -/
theorem Growth.of_mem_of_sink (h : Growth g g' ev l) (hg : g.Inv)
    (hrf : ev.getReadFromEvent = some τ) (hsink : g.moSuccessors τ = []) {y : ℕ}
    (hxy : (x, y) ∈ l) : (y = τ ∧ x ≠ τ ∧ Source g ev x) ∨ (y = ev.id ∧ x < g.events.length) := by
  obtain ⟨w, hw, rfl, hne, hsrc⟩ | ⟨-, rfl, hsrc⟩ | ⟨-, -, w, hw, hy⟩ := h.sound x y hxy
  · obtain rfl : y = τ := Option.some.inj (hw.symm.trans hrf)
    exact .inl ⟨rfl, hne, hsrc⟩
  · refine .inr ⟨rfl, ?_⟩
    cases hsrc with
    | inl hsrc => exact (hg.of_source hsrc).1
    | inr hsrc => exact (h.readFrom x hsrc).1
  · obtain rfl : w = τ := Option.some.inj (hw.symm.trans hrf)
    simp [hsink] at hy

/-- **An attempt to read from a sink passes the test**, if the sources of the new event get their
edge to the sink before any other, and the sink is not in the stack when one of them is
expanded. -/
theorem Growth.consistent_of_sink (h : Growth g g' ev l) (hg : g.Inv)
    (hrf : ev.getReadFromEvent = some τ) (hsink : g.moSuccessors τ = [])
    (hfirst : ∀ x, (x, τ) ∈ l → FirstTo l x τ)
    (hav : DepthFirst.Avoids g.moSuccessors (fun x => Source g ev x ∧ x ≠ τ) τ
      (DepthFirst.init (List.range g'.events.length))) : g'.isConsistent = true := by
  have hτ := (h.readFrom τ hrf).1
  have hid := h.id
  have hne : τ ≠ ev.id := by omega
  have htgt : ∀ p ∈ l, p.2 = τ ∨ p.2 = ev.id := fun p hp =>
    (h.of_mem_of_sink hg hrf hsink hp).imp And.left And.left
  have hord : ∀ x l₁ l₂, l = l₁ ++ (x, ev.id) :: l₂ → (x, τ) ∈ l₂ →
      (x, τ) ∈ l₁ ∨ τ ∈ g.moSuccessors x := by
    intro x l₁ l₂ hl hx
    obtain ⟨m₁, m₂, hm, hfresh⟩ := hfirst x (by simp [hl, hx])
    obtain ⟨a, rfl, ha⟩ | ⟨c, rfl, hc⟩ := List.append_eq_append_iff.mp (hl.symm.trans hm)
    · -- the edge to the new event would come before the first edge of `x`
      cases a with
      | nil => simp [hne.symm] at ha
      | cons p a =>
        obtain ⟨rfl, -⟩ := List.cons_eq_cons.mp ha
        exact absurd rfl (hfresh (x, ev.id) (by simp))
    · cases c with
      | nil => simp [hne] at hc
      | cons p c =>
        obtain ⟨rfl, -⟩ := List.cons_eq_cons.mp hc
        exact .inl (by simp)
  rw [(h.wellFormed hg).isConsistent_iff, h.mo, insertEdges_two hne (h.id_notMem hg) htgt hord]
  set S := (l.filter fun p => p.2 = τ).map Prod.fst with hSdef
  set N := (l.filter fun p => p.2 = ev.id).map Prod.fst with hNdef
  have hS : ∀ x ∈ S, x ≠ τ ∧ Source g ev x := by
    intro x hx
    have hxl : (x, τ) ∈ l := by simpa [hSdef] using hx
    exact ((h.of_mem_of_sink hg hrf hsink hxl).resolve_right fun hn => hne hn.1).2
  have hN : ∀ x ∈ N, x < g.events.length := by
    intro x hx
    have hxl : (x, ev.id) ∈ l := by simpa [hNdef] using hx
    exact ((h.of_mem_of_sink hg hrf hsink hxl).resolve_left fun hn => hne hn.1.symm).2
  -- first the edges into the sink, then those into the new event
  have hacc := DepthFirst.accepts_insertSink (h.mem_range_of_mem hg)
    (by rw [List.mem_range, h.length]; omega) hsink (fun hmem => (hS τ hmem).1 rfl)
    (h.accepts_range hg) fun st hr x rest hst hx => hav st hr x rest hst (hS x hx.1).symm
  refine DepthFirst.accepts_insertSink (fun v s hs => ?_) h.id_mem_range ?_
    (fun hmem => ?_) hacc (DepthFirst.avoids_of_forall_not_mem (fun v hv => ?_) _ _)
  · obtain hs | ⟨-, rfl⟩ := DepthFirst.mem_insertSink.mp hs
    · exact h.mem_range_of_mem hg v s hs
    · rw [List.mem_range, h.length]
      omega
  · refine List.eq_nil_iff_forall_not_mem.mpr fun s hs => ?_
    obtain hs | ⟨hmem, -⟩ := DepthFirst.mem_insertSink.mp hs
    · simp [h.moSuccessors_id hg] at hs
    · have := (hg.of_source (hS _ hmem).2).1
      omega
  · have := hN _ hmem
    omega
  · obtain hv | ⟨-, heq⟩ := DepthFirst.mem_insertSink.mp hv
    · exact h.id_notMem hg v hv
    · exact hne heq.symm

/-- The rules draw the edges of a source to the event read from before those to the new event. -/
theorem firstTo_ruleEdges {last : ℤ → Option ℕ} (hg : g.Settled) (hsink : g.moSuccessors τ = [])
    (hne : τ ≠ ev.id) (hx : (x, τ) ∈ ruleEdges g last ev τ) :
    FirstTo (ruleEdges g last ev τ) x τ := by
  have hread : ∀ p ∈ writeReadEdges g ev τ ++ readReadEdges g ev τ, p.2 = τ ∧ p.1 ≠ τ := by
    intro p hp
    cases List.mem_append.mp hp with
    | inl hp => exact (source_of_mem_writeReadEdges hg.wf hp).imp_right And.left
    | inr hp => exact (source_of_mem_readReadEdges hg.wf hp).imp_right And.left
  have hwrite : ∀ p ∈ readWriteEdges g ev ++ writeWriteEdges g ev, p.2 = ev.id := by
    intro p hp
    cases List.mem_append.mp hp with
    | inl hp => exact (source_of_mem_readWriteEdges hg hp).1
    | inr hp => exact (source_of_mem_writeWriteEdges hg.wf hp).1
  rw [ruleEdges] at hx ⊢
  by_cases hr : (ev.isRead || ev.isReadRWM) = true
  · -- a read draws edges to the event it reads from only
    rw [if_pos hr] at hx ⊢
    refine firstTo_of_mem (fun p hp => ?_) hx
    rw [List.append_assoc] at hp
    obtain hp | hp := List.mem_append.mp hp
    · split at hp
      · exact (mem_seqCstReadWriteEdges.mp hp).2.2
      · simp at hp
    · exact (hread p hp).1
  · rw [if_neg hr, hsink] at hx ⊢
    set sc := if ev.isSeqCst = true then
      seqCstReadWriteEdges last ev τ ++ seqCstConsistencyEdges last ev else [] with hscdef
    have hsc : ∀ p ∈ sc, last ev.location = some p.1 ∧ ev.isSeqCst = true ∧
        (p.2 = τ → p.1 ≠ τ) := by
      intro p hp
      by_cases hseq : ev.isSeqCst = true
      · rw [hscdef, if_pos hseq] at hp
        cases List.mem_append.mp hp with
        | inl hp =>
          obtain ⟨hl, hpτ, -⟩ := mem_seqCstReadWriteEdges.mp hp
          exact ⟨hl, hseq, fun _ => hpτ⟩
        | inr hp =>
          obtain ⟨hl, hpn⟩ := mem_seqCstConsistencyEdges.mp hp
          exact ⟨hl, hseq, fun hpτ => absurd (hpτ.symm.trans hpn) hne⟩
      · rw [hscdef, if_neg hseq] at hp
        simp at hp
    -- the last seq-cst write gets its edge to `τ` before its edge to the new event
    have hlast : last ev.location = some x → ev.isSeqCst = true → x ≠ τ → FirstTo sc x τ := by
      intro hl hseq hxτ
      refine ⟨[], seqCstConsistencyEdges last ev, ?_, by simp⟩
      simp [hscdef, hseq, seqCstReadWriteEdges, hl, hxτ]
    simp only [List.map_nil, List.append_assoc, List.cons_append, List.nil_append] at hx ⊢
    rw [← List.append_assoc (writeReadEdges g ev τ)] at hx ⊢
    have hhead : x ≠ τ → ∀ p ∈ [(τ, ev.id)], p.1 ≠ x := by simp [eq_comm]
    obtain hx | hx := List.mem_cons.mp hx
    · exact absurd (Prod.mk.inj hx).2 hne
    obtain hx | hx := List.mem_append.mp hx
    · obtain ⟨hl, hseq, hxτ⟩ := hsc _ hx
      exact ((hlast hl hseq (hxτ rfl)).append_right _).append_left (hhead (hxτ rfl))
    obtain hx | hx := List.mem_append.mp hx
    · have hxτ : x ≠ τ := (hread _ hx).2
      by_cases hl : last ev.location = some x ∧ ev.isSeqCst = true
      · exact ((hlast hl.1 hl.2 hxτ).append_right _).append_left (hhead hxτ)
      · have hfirst := firstTo_of_mem (fun p hp => (hread p hp).1) hx
        refine ((hfirst.append_right _).append_left fun p hp hpx => hl ?_).append_left (hhead hxτ)
        obtain ⟨hlp, hseq, -⟩ := hsc p hp
        exact ⟨hpx ▸ hlp, hseq⟩
    · exact absurd (hwrite _ hx) hne

end Sink

/-! ### The sink to read from -/

section Above

variable {g : Graph V} {ev : Event V}

/-- What an attempt of the event `ev` can be bound by, whatever it reads from: the last seq-cst
write, and what was written or read at the location in the past of `ev` or of that write. -/
def Bound (g : Graph V) (ev : Event V) (x : ℕ) : Prop :=
  g.lastSeqCstWriteEvents ev.location = some x ∨
    ∃ i < g.events.length, (g.event i).location = ev.location ∧
      ((g.event i).happensBefore ev = true ∨ ∃ w₀, g.lastSeqCstWriteEvents ev.location = some w₀ ∧
        (g.event i).happensBefore (g.event w₀) = true) ∧
      ((g.event i).modifies = true ∧ x = i ∨ (g.event i).getReadFromEvent = some x)

/-- At or after an event that `ev` is bound by. -/
def Above (g : Graph V) (ev : Event V) (u : ℕ) : Prop := ∃ x, Bound g ev x ∧ ReflTransGen g.Mo x u

theorem Bound.spec {x : ℕ} (h : Bound g ev x) (hg : g.Inv) :
    x < g.events.length ∧ (g.event x).modifies = true ∧ (g.event x).location = ev.location := by
  obtain hlast | ⟨i, hi, hloc, -, ⟨hm, rfl⟩ | hr⟩ := h
  · exact hg.last _ _ hlast
  · exact ⟨hi, hm, hloc⟩
  · obtain ⟨hlt, hm, hl⟩ := hg.readFrom i hi x hr
    exact ⟨by omega, hm, hl.trans hloc⟩

theorem Above.spec {u : ℕ} (h : Above g ev u) (hg : g.Inv) :
    u < g.events.length ∧ (g.event u).modifies = true ∧ (g.event u).location = ev.location := by
  obtain ⟨x, hx, hxu⟩ := h
  induction hxu with
  | refl => exact hx.spec hg
  | tail _ hstep ih =>
    obtain ⟨-, hm, hl, -⟩ := hg.typed _ _ hstep
    exact ⟨(hg.wf.mo_lt _ _ hstep).2, hm, hl.symm.trans ih.2.2⟩

variable [DecidableEq V] [Inhabited V] [AtomicOps V]

/-- The sources of an attempt to read from `w`: they bind the event anyway, or they are not after
`w`. -/
theorem bound_of_source (hg : g.Inv) {t : ℕ} (hclock : NextClock g t ev.clock) {ev₁ : Event V}
    (hr : Retry g g.lastSeqCstWriteEvents ev ev₁) {w : ℕ} (hw : w < g.events.length)
    (hwm : (g.event w).modifies = true) (hwl : (g.event w).location = ev.location) {x : ℕ}
    (hx : Source g (g.attemptEvent g.lastSeqCstWriteEvents ev₁ w) x) :
    Bound g ev x ∨ x = w ∨ TransGen g.Mo x w := by
  obtain ⟨c, hc⟩ := exists_attemptEvent g g.lastSeqCstWriteEvents ev₁ w
  have hloc : (g.attemptEvent g.lastSeqCstWriteEvents ev₁ w).location = ev.location := by
    rw [hc]; simpa using hr.location
  obtain ⟨-, hlast⟩ | ⟨i, hi, hil, hhb, hxi⟩ := hx
  · exact .inl (.inl (hloc ▸ hlast))
  · rw [hloc] at hil
    obtain hhb | hhb | ⟨hpast, -⟩ :=
      NextClock.of_happensBefore_attemptEvent hg.toSettled hclock hr hw hi hhb
    · exact .inl (.inr ⟨i, hi, hil, .inl hhb, hxi⟩)
    · exact .inr (hg.eq_or_transGen hi hw (hil.trans hwl.symm) hhb hwm hxi)
    · exact .inl (.inr ⟨i, hi, hil, .inr hpast, hxi⟩)

end Above

section Read

variable [DecidableEq V] [Inhabited V] [AtomicOps V]

/-- **One of the candidates would be accepted at any moment of the loop.** -/
theorem ReadSetup.exists_accepted {g : Graph V} {ev : Event V} {cs : List ℕ}
    (hs : ReadSetup g ev cs) (hg : g.Inv) :
    ∃ τ ∈ cs, ∀ g₂ ev₂, Retry g g.lastSeqCstWriteEvents (g.fresh ev) ev₂ →
      Sketch g [] false g₂ ev₂ [] g.lastSeqCstWriteEvents →
      (g₂.attempt τ ev₂.id).isConsistent = true := by
  obtain ⟨w₀, hw₀lt, hw₀⟩ := hs.exists_last hg
  have hclosed : ∀ u, Above g (g.fresh ev) u → ∀ s ∈ g.moSuccessors u, Above g (g.fresh ev) s := by
    rintro u ⟨x, hx, hxu⟩ s hs
    exact ⟨x, hx, hxu.tail (hg.wf.edge_iff.mp hs)⟩
  have hnil : g.moSuccessors g.events.length = [] :=
    List.eq_nil_iff_forall_not_mem.mpr fun s hs => Nat.lt_irrefl _ (hg.wf.lt_of_mem hs).1
  have hacc : DepthFirst.Accepts g.moSuccessors
      (DepthFirst.init (List.range (g.events.length + 1))) := by
    rw [List.range_succ]
    exact DepthFirst.accepts_concat hnil (hg.wf.isConsistent_iff.mp hg.consistent)
  obtain ⟨τ, hτ, hsink, hav⟩ := DepthFirst.exists_sink hclosed hacc
    ⟨w₀, List.mem_range.mpr (by omega), w₀, .inl hw₀, .refl⟩
  obtain ⟨hτlt, hτm, hτl⟩ := hτ.spec hg
  have hτc : τ ∈ cs := (hs.candidates τ).mpr ⟨hτlt, hτm, hτl⟩
  refine ⟨τ, hτc, fun g₂ ev₂ hr hsk => ?_⟩
  have hgrow := hs.growth hg hτc hsk hr
  have hrf := attemptEvent_getReadFromEvent g g.lastSeqCstWriteEvents hr.unresolved τ
  have hid := hgrow.id
  rw [← isConsistent_applySnapshot]
  refine hgrow.consistent_of_sink hg hrf hsink
    (fun x hx => firstTo_ruleEdges hg.toSettled hsink (by omega) hx) ?_
  rw [hgrow.length]
  -- a source is one of those the sink was chosen for, or comes before the sink
  rintro st hreach x rest hst ⟨hsrc, hne⟩
  obtain hx | hx | hx := bound_of_source hg (hs.nextClock hg) hr hτlt hτm hτl hsrc
  · exact hav st hreach x rest hst ⟨⟨x, hx, .refl⟩, hne⟩
  · exact absurd hx hne
  · refine DepthFirst.avoids_of_transGen hacc τ st hreach x rest hst ⟨hne, ?_⟩
    exact TransGen.mono (fun a b hab => hg.wf.edge_iff.mpr hab) x τ hx

/-- The loop of a reading call finds a candidate. -/
theorem ReadSetup.addReadingEvent_ne_none {g : Graph V} {ev : Event V} {cs : List ℕ}
    (hs : ReadSetup g ev cs) (hg : g.Inv) : g.addReadingEvent ev cs ≠ none := by
  obtain ⟨τ, hτ, haccept⟩ := hs.exists_accepted hg
  have hstart : Attempting g ev cs (g.createPoEdgeToEvent ev) := .start
  obtain ⟨w, hw, g₁, hatt, hcons, heq⟩ | ⟨-, hrej⟩ := hstart.tryCandidates fun _ hw => hw
  · obtain ⟨ev₁, -, hacc⟩ := hatt.exists_accepted hg hs hw hcons
    have hself := hacc.growth.event_length
    rw [← hs.id] at hself
    rw [addReadingEvent, heq, hself, attemptEvent_getReadFromEvent _ _ hacc.retry.unresolved]
    simp
  · obtain ⟨g₂, hatt, hno⟩ := hrej τ hτ
    obtain ⟨ev₂, hsk, hr⟩ := hatt.exists_sketch hg hs
    have hid : ev₂.id = ev.id := hr.id
    rw [← hid, haccept g₂ ev₂ hr hsk] at hno
    exact Bool.noConfusion hno

end Read

end Graph

namespace ExecutionGraph

variable [DecidableEq V] [Inhabited V] [AtomicOps V]

/-- **A read never gets stuck.** In every reachable execution graph a load, a compare-exchange and
an unconditional read-modify-write of a registered location return, whatever the thread, the
memory orders and the shuffle: one of the candidates is accepted, and the event reads from it. -/
theorem exists_exec_of_reachable {e : ExecutionGraph V} (h : Reachable e) {op : Op V}
    (hen : e.Enabled op) {ev : Event V} (hev : e.readingEvent op = some ev) :
    ∃ e' r w, e.exec op = some (e', r) ∧ w ∈ shuffled op ∧
      (e'.graph.event ev.id).getReadFromEvent = some w := by
  obtain ⟨hs, -⟩ := h.inv.readSetup hen hev
  obtain ⟨g', hg'⟩ := Option.ne_none_iff_exists'.mp (hs.addReadingEvent_ne_none h.inv.graph)
  obtain ⟨w, hw, ev₁, hacc⟩ := hs.of_some h.inv.graph hg'
  refine ⟨{ e with graph := g' }, readResult g' e.graph.events.length op, w, ?_, hw, ?_⟩
  · rw [exec_of_readingEvent hev, hg']
    rfl
  · have hself := hacc.growth.event_length
    rw [← hs.id] at hself
    change (g'.event ev.id).getReadFromEvent = some w
    rw [hself]
    exact Graph.attemptEvent_getReadFromEvent _ _ hacc.retry.unresolved w

/-- A location that both threads have stored to. -/
def twoStores : ExecutionGraph (BitVec 32) :=
  after [.reset 2, .registerLocation 0, .store 0 0 .release 1, .store 0 1 .relaxed 2]

theorem exists_exec_twoStores :
    twoStores.Enabled (.readModifyWrite 0 1 2 3 .acqRel .seqCst [2, 3, 4]) ∧
      ∃ e' r w, twoStores.exec (.readModifyWrite 0 1 2 3 .acqRel .seqCst [2, 3, 4]) = some (e', r) ∧
        w ∈ [2, 3, 4] ∧
        (e'.graph.event twoStores.graph.events.length).getReadFromEvent = some w := by
  have hen : twoStores.Enabled (.readModifyWrite 0 1 2 3 .acqRel .seqCst [2, 3, 4]) := by
    decide +kernel
  exact ⟨hen, exists_exec_of_reachable (reachable_after _) hen rfl⟩

end ExecutionGraph

end Wmm

end LTest
