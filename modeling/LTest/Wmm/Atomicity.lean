import LTest.Wmm.Coherence

/-!
# Atomicity of read-modify-writes

`CreateRmwAtomicityEdges` orders a new read-modify-write before the successors its source has at
that moment. Edges that are drawn later can still put an event in between, and two
read-modify-writes can read from the same event: with relaxed accesses three `fetch_add`s are
enough. In runs whose calls do not get ahead of a read-modify-write they could not observe,
atomicity holds.

## Main definitions

* `Graph.Observed` — what a thread has seen of a location
* `ExecutionGraph.ObservesRmws` — a call whose thread has seen the read-modify-writes it could
  get ahead of

## Main results

* `ExecutionGraph.lost_update` — two `fetch_add`s read from the same event
* `ExecutionGraph.atomicity_of_observesRmws` — atomicity, for runs that observe read-modify-writes
-/

namespace LTest

namespace Wmm

open Relation

variable {V : Type}

namespace Graph

variable {g : Graph V}

/-- The event `m` is a read-modify-write that modifies and reads from `w`. -/
def ModifiesFrom (g : Graph V) (m w : ℕ) : Prop :=
  m < g.events.length ∧ (g.event m).isModifyRMW = true ∧ (g.event m).getReadFromEvent = some w

instance (g : Graph V) (m w : ℕ) : Decidable (g.ModifiesFrom m w) :=
  inferInstanceAs (Decidable (_ ∧ _ ∧ _))

theorem ModifiesFrom.modifies {m w : ℕ} (h : g.ModifiesFrom m w) : (g.event m).modifies = true := by
  rw [Event.modifies, h.2.1, Bool.or_true]

/-- Every successor of the event a read-modify-write reads from comes after it. -/
def Atomic (g : Graph V) : Prop :=
  ∀ m w, g.ModifiesFrom m w → ∀ y, g.Mo w y → y ≠ m → TransGen g.Mo m y

/-- Then whatever is reached from the event is reached from the read-modify-write. -/
theorem Atomic.of_transGen (h : g.Atomic) {m w z : ℕ} (hm : g.ModifiesFrom m w)
    (hz : TransGen g.Mo w z) : m = z ∨ TransGen g.Mo m z := by
  obtain ⟨y, hy, hyz⟩ := TransGen.head'_iff.mp hz
  by_cases hym : y = m
  · subst hym
    exact (reflTransGen_iff_eq_or_transGen.mp hyz).imp_left Eq.symm
  · exact .inr (.trans_left (h m w hm y hy hym) hyz)

/-- The event `y` was seen by thread `t` at location `x`: it was written or read from in the past
of the thread's last event, or, for a seq-cst access, it is the last seq-cst write. -/
def Observed (g : Graph V) (x : ℤ) (t : ℕ) (seqCst : Prop) (y : ℕ) : Prop :=
  (seqCst ∧ g.lastSeqCstWriteEvents x = some y) ∨
    ∃ i < g.events.length, (g.event i).location = x ∧
      (g.event i).happensBefore (g.event ((g.eventsPerThread t).getLastD 0)) = true ∧
      ((g.event i).modifies = true ∧ y = i ∨ (g.event i).getReadFromEvent = some y)

/-- The event `m` was seen, or it comes before an event that was. -/
def Seen (g : Graph V) (x : ℤ) (t : ℕ) (seqCst : Prop) (m : ℕ) : Prop :=
  ∃ y, g.Observed x t seqCst y ∧ (m = y ∨ TransGen g.Mo m y)

/-- What the thread of the new event has seen is a source of it. -/
theorem Growth.source_of_observed {g' : Graph V} {ev : Event V} {l : List (ℕ × ℕ)}
    (h : Growth g g' ev l) (hg : g.Inv) {seqCst : Prop} (hsc : seqCst → ev.isSeqCst = true) {y : ℕ}
    (hy : g.Observed ev.location ev.threadId seqCst y) : Source g ev y := by
  rcases hy with ⟨hs, hlast⟩ | ⟨i, hi, hloc, hhb, hy⟩
  · exact .inl ⟨hsc hs, hlast⟩
  · obtain ⟨hlt, hthread, -⟩ := hg.wf.getLastD_spec h.thread_lt
    exact .inr ⟨i, hi, hloc, Event.happensBefore_trans hhb
      (Event.happensBefore_iff.mpr (h.clock.thread _ hlt hthread)), hy⟩

/-- The event `m` is not after what the new event reads from, and before the new event. -/
def Precedes (g' : Graph V) (ev : Event V) (m : ℕ) : Prop :=
  (∀ w, ev.getReadFromEvent = some w → m = w ∨ TransGen g'.Mo m w) ∧
    (ev.modifies = true → TransGen g'.Mo m ev.id)

/-- What the new event knows, its thread knows, or the event it reads from, or, if it is seq-cst,
the last seq-cst write. -/
def SplitPast (g : Graph V) (ev : Event V) : Prop :=
  ∀ i < g.events.length, (g.event i).happensBefore ev = true →
    (g.event i).happensBefore (g.event ((g.eventsPerThread ev.threadId).getLastD 0)) = true ∨
    (∃ w, ev.getReadFromEvent = some w ∧ (g.event i).happensBefore (g.event w) = true) ∨
    (ev.isSeqCst = true ∧ ∃ w₀, g.lastSeqCstWriteEvents ev.location = some w₀ ∧
      (g.event i).happensBefore (g.event w₀) = true)

namespace Growth

variable {g g' : Graph V} {ev : Event V} {l : List (ℕ × ℕ)}

theorem precedes_of_source (h : Growth g g' ev l) (hg : g.Inv) {m y : ℕ} (hy : Source g ev y)
    (hmy : m = y ∨ TransGen g.Mo m y) : Precedes g' ev m := by
  obtain ⟨hw, hr⟩ := h.of_source hg hy
  rcases hmy with rfl | hmy
  · exact ⟨hr, hw⟩
  · have hmy' := h.mo_mono hg.wf hmy
    exact ⟨fun w hw' => .inr ((hr w hw').elim (fun heq => heq ▸ hmy') hmy'.trans),
      fun hm => hmy'.trans (hw hm)⟩

theorem precedes_of_seen (h : Growth g g' ev l) (hg : g.Inv) (seqCst : Prop)
    (hsc : seqCst → ev.isSeqCst = true) {m : ℕ}
    (hm : g.Seen ev.location ev.threadId seqCst m) : Precedes g' ev m := by
  obtain ⟨y, hy, hmy⟩ := hm
  exact h.precedes_of_source hg (h.source_of_observed hg hsc hy) hmy

/-- **One step**: if the new event gets ahead of no read-modify-write that reads from one of its
sources, atomicity is kept. -/
theorem atomic (h : Growth g g' ev l) (hg : g.Inv) (hat : g.Atomic)
    (hprec : ∀ m w, g.ModifiesFrom m w →
      Source g ev w ∧ ev.getReadFromEvent ≠ some w ∨
        ev.modifies = true ∧ (Source g ev w ∨ ev.getReadFromEvent = some w) →
      Precedes g' ev m) : g'.Atomic := by
  intro m w hm y hwy hym
  obtain ⟨hmlt, hmod, hrf⟩ := hm
  rcases h.lt_or_eq hmlt with hmlt | rfl
  · -- an old read-modify-write
    rw [h.event_of_lt hmlt] at hmod hrf
    have hm : g.ModifiesFrom m w := ⟨hmlt, hmod, hrf⟩
    rcases (h.mo_iff hg.wf).mp hwy with hwy | hwy
    · exact h.mo_mono hg.wf (hat m w hm y hwy hym)
    · rcases h.sound w y hwy with ⟨w', hw', rfl, hne, hsrc⟩ | ⟨hev, rfl, hsrc⟩ | ⟨-, rfl, -⟩
      · have hne' : ev.getReadFromEvent ≠ some w := fun heq =>
          hne (Option.some.inj (heq.symm.trans hw'))
        exact ((hprec m w hm (.inl ⟨hsrc, hne'⟩)).1 y hw').resolve_left (Ne.symm hym)
      · exact (hprec m w hm (.inr ⟨hev, hsrc⟩)).2 hev
      · have := (hg.readFrom m hmlt _ hrf).1
        have := h.id
        omega
  · -- the new event: its atomicity edges
    rw [h.event_length] at hmod hrf
    have hev : ev.modifies = true := by rw [Event.modifies, hmod, Bool.or_true]
    rw [← h.id] at hym ⊢
    rcases (h.mo_iff hg.wf).mp hwy with hwy | hwy
    · exact .single (h.mo_of_mem hg.wf
        ((h.rmw hev w hrf).2 y (hg.wf.indexed.mem_moSuccessors.mpr hwy)))
    · rcases h.sound w y hwy with ⟨w', hw', rfl, hne, -⟩ | ⟨-, hy, -⟩ | ⟨-, rfl, -⟩
      · exact absurd (Option.some.inj (hrf.symm.trans hw')) hne
      · exact absurd hy hym
      · have := (h.readFrom _ hrf).1
        have := h.id
        omega

/-- If the thread has seen the read-modify-writes that read from what it has seen, the new event
gets ahead of none that reads from one of its sources. -/
theorem precedes_of_closed (h : Growth g g' ev l) (hg : g.Inv) (hat : g.Atomic)
    (hsplit : SplitPast g ev)
    (hclosed : ∀ m w, g.ModifiesFrom m w →
      g.Observed ev.location ev.threadId (ev.isSeqCst = true) w →
      g.Seen ev.location ev.threadId (ev.isSeqCst = true) m) {m w : ℕ} (hm : g.ModifiesFrom m w)
    (hsrc : Source g ev w) (hne : ev.getReadFromEvent ≠ some w) : Precedes g' ev m := by
  have hseen : g.Observed ev.location ev.threadId (ev.isSeqCst = true) w → Precedes g' ev m :=
    fun hw => h.precedes_of_seen hg _ (fun hsc => hsc) (hclosed m w hm hw)
  rcases hsrc with ⟨hsc, hlast⟩ | ⟨i, hi, hloc, hhb, hw⟩
  · exact hseen (.inl ⟨hsc, hlast⟩)
  rcases hsplit i hi hhb with hhb | ⟨w₁, hw₁, hhb⟩ | ⟨hsc, w₀, hw₀, hhb⟩
  · exact hseen (.inr ⟨i, hi, hloc, hhb, hw⟩)
  · -- through the event that is read from
    obtain ⟨hlt, hmod, hl⟩ := h.readFrom w₁ hw₁
    have hww₁ := (hg.eq_or_transGen hi hlt (hloc.trans hl.symm) hhb hmod hw).resolve_left
      fun heq => hne (heq ▸ hw₁)
    rcases hat.of_transGen hm hww₁ with rfl | hmw₁
    · exact ⟨fun w' hw' => .inl (Option.some.inj (hw₁.symm.trans hw')),
        fun hev => .single (h.mo_of_mem hg.wf (h.rmw hev _ hw₁).1)⟩
    · have hmw₁' := h.mo_mono hg.wf hmw₁
      exact ⟨fun w' hw' => .inr (Option.some.inj (hw₁.symm.trans hw') ▸ hmw₁'),
        fun hev => hmw₁'.tail (h.mo_of_mem hg.wf (h.rmw hev _ hw₁).1)⟩
  · -- through the last seq-cst write
    obtain ⟨hlt, hmod, hl⟩ := hg.last _ _ hw₀
    rcases hg.eq_or_transGen hi hlt (hloc.trans hl.symm) hhb hmod hw with rfl | hww₀
    · exact hseen (.inl ⟨hsc, hw₀⟩)
    · exact h.precedes_of_source hg (.inl ⟨hsc, hw₀⟩) (hat.of_transGen hm hww₀)

end Growth

end Graph

/-! ### Runs -/

namespace ExecutionGraph

variable {e : ExecutionGraph V} {l : List (ℕ × ℕ)} {g' : Graph V}

/-- The thread has seen the read-modify-writes that read from what it has seen. -/
def SeesFollowers (e : ExecutionGraph V) (x : ℤ) (t : ℕ) (seqCst : Prop) : Prop :=
  ∀ m w, e.graph.ModifiesFrom m w → e.graph.Observed x t seqCst w → e.graph.Seen x t seqCst m

/-- The thread has seen all read-modify-writes of the location. -/
def SeesAll (e : ExecutionGraph V) (x : ℤ) (t : ℕ) (seqCst : Prop) : Prop :=
  ∀ m w, e.graph.ModifiesFrom m w → (e.graph.event m).location = x → e.graph.Seen x t seqCst m

/-- No call gets ahead of a read-modify-write its thread has not seen: a load or store is made by
a thread that, with an event, has seen the read-modify-write that reads from it; a
read-modify-write is made by a thread that has seen all of the location. -/
def ObservesRmws (e : ExecutionGraph V) : Op V → Prop
  | .load x t order _ => e.SeesFollowers x t (order = .seqCst)
  | .store x t order _ => e.SeesFollowers x t (order = .seqCst)
  | .readModifyWrite x t _ _ success failure _ =>
    e.SeesAll x t (success = .seqCst ∧ failure = .seqCst)
  | .unconditionalReadModifyWrite x t _ _ order _ => e.SeesAll x t (order = .seqCst)
  | _ => True

theorem precedes_of_store (h : e.Inv) {x : ℤ} {t : ℕ} {o : MemoryOrder} {v : V}
    (hop : e.SeesFollowers x t (o = .seqCst))
    (hgrow : Graph.Growth e.graph g' (e.graph.storeEvent x t o v) l) (hat : e.graph.Atomic)
    {m w : ℕ} (hm : e.graph.ModifiesFrom m w)
    (hsrc : Graph.Source e.graph (e.graph.storeEvent x t o v) w) :
    Graph.Precedes g' (e.graph.storeEvent x t o v) m := by
  obtain ⟨c, hc⟩ := Graph.exists_storeEvent e.graph x t o v
  have hthread : (e.graph.storeEvent x t o v).threadId = t := by rw [hc]; rfl
  have hloc : (e.graph.storeEvent x t o v).location = x := by rw [hc]; rfl
  have hsc : ((e.graph.storeEvent x t o v).isSeqCst = true) = (o = .seqCst) := by
    rw [hc]; exact decide_eq_true_eq
  refine hgrow.precedes_of_closed h.graph hat (fun i hi hhb => ?_) ?_ hm hsrc (by rw [hc]; simp
    [Event.getReadFromEvent, Graph.writeEvent])
  · rw [hthread, hsc, hloc]
    exact
      (h.graph.toSettled.of_happensBefore_storeEvent (hthread ▸ hgrow.thread_lt) hi hhb).imp_right
      .inr
  · rw [hthread, hsc, hloc]
    exact hop

variable [DecidableEq V] [Inhabited V] [AtomicOps V]

/-- A load of a thread that sees followers. -/
theorem precedes_of_load (h : e.Inv) {x : ℤ} {t : ℕ} {o : MemoryOrder}
    (hop : e.SeesFollowers x t (o = .seqCst)) {ev₁ : Event V} {write : ℕ}
    (hr : Graph.Retry e.graph e.graph.lastSeqCstWriteEvents
      (e.graph.fresh (e.graph.readEvent x t o)) ev₁)
    (hgrow : Graph.Growth e.graph g'
      (e.graph.attemptEvent e.graph.lastSeqCstWriteEvents ev₁ write) l) (hat : e.graph.Atomic)
    {m w : ℕ} (hm : e.graph.ModifiesFrom m w)
    (hsrc : Graph.Source e.graph (e.graph.attemptEvent e.graph.lastSeqCstWriteEvents ev₁ write) w)
    (hne : write ≠ w) :
    Graph.Precedes g' (e.graph.attemptEvent e.graph.lastSeqCstWriteEvents ev₁ write) m := by
  obtain ⟨c, hc⟩ := hr.exists_attemptEvent write
  have hrf := Graph.attemptEvent_getReadFromEvent e.graph e.graph.lastSeqCstWriteEvents
    hr.unresolved write
  set ev := e.graph.attemptEvent e.graph.lastSeqCstWriteEvents ev₁ write with hev
  have hthread : ev.threadId = t := by rw [hc]; rfl
  have hloc : ev.location = x := by rw [hc]; rfl
  have hsc : (ev.isSeqCst = true) = (o = .seqCst) := by rw [hc]; exact decide_eq_true_eq
  have ht : t < e.graph.nThreads := hthread ▸ hgrow.thread_lt
  refine hgrow.precedes_of_closed h.graph hat (fun i hi hhb => ?_) ?_ hm hsrc
    (by simpa [hrf] using hne)
  · have hclock : Graph.NextClock e.graph (e.graph.fresh (e.graph.readEvent x t o)).threadId
        (e.graph.fresh (e.graph.readEvent x t o)).clock := h.graph.nextClock ht
    rw [hthread, hsc, hloc]
    rcases Graph.NextClock.of_happensBefore_attemptEvent h.graph.toSettled hclock hr
      (hgrow.readFrom write hrf).1 hi hhb with hhb | hhb | ⟨hlast, _, _, hseq⟩
    · exact .inl (h.graph.happensBefore_last ht hi (Event.happensBefore_iff.mp hhb))
    · exact .inr (.inl ⟨write, hrf, hhb⟩)
    · exact .inr (.inr ⟨of_decide_eq_true hseq, hlast⟩)
  · rw [hthread, hsc, hloc]
    exact hop

theorem precedes_of_observesRmws (h : e.Inv) {op : Op V} (hop : e.ObservesRmws op) {ev : Event V}
    (hperf : Performs e op ev) (hgrow : Graph.Growth e.graph g' ev l) (hat : e.graph.Atomic)
    {m w : ℕ} (hm : e.graph.ModifiesFrom m w)
    (hw : Graph.Source e.graph ev w ∧ ev.getReadFromEvent ≠ some w ∨
      ev.modifies = true ∧ (Graph.Source e.graph ev w ∨ ev.getReadFromEvent = some w)) :
    Graph.Precedes g' ev m := by
  have hloc : (e.graph.event m).location = ev.location := by
    have hwl : (e.graph.event w).location = ev.location := by
      rcases hw with ⟨hs, -⟩ | ⟨-, hs | hrf⟩
      · exact (h.graph.of_source hs).2.2
      · exact (h.graph.of_source hs).2.2
      · exact (hgrow.readFrom w hrf).2.2
    exact (h.graph.readFrom m hm.1 w hm.2.2).2.2.symm.trans hwl
  cases hperf with
  | write hev =>
    have hsrc : ev.getReadFromEvent = none → Graph.Source e.graph ev w := fun hnone => by
      rcases hw with ⟨hs, -⟩ | ⟨-, hs | hrf⟩
      · exact hs
      · exact hs
      · simp [hnone] at hrf
    cases op with
    | registerLocation v =>
      -- nothing is known of a new location
      obtain rfl := Option.some.inj hev
      obtain ⟨c, hc⟩ := Graph.exists_storeEvent e.graph e.nextLocationId initThreadId .seqCst v
      rw [hc] at hloc
      have := h.location_lt m hm.1
      rw [hloc] at this
      exact absurd this (Int.lt_irrefl _)
    | store x t o v =>
      obtain rfl := Option.some.inj hev
      obtain ⟨c, hc⟩ := Graph.exists_storeEvent e.graph x t o v
      exact precedes_of_store h hop hgrow hat hm (hsrc (by rw [hc]; rfl))
    | _ => cases hev
  | @read ev₀ ev₁ write hev hr =>
    obtain ⟨c, hc⟩ := hr.exists_attemptEvent write
    cases op with
    | load x t o cs =>
      obtain rfl := Option.some.inj hev
      have hrf := Graph.attemptEvent_getReadFromEvent e.graph e.graph.lastSeqCstWriteEvents
        hr.unresolved write
      have hmod : (e.graph.attemptEvent e.graph.lastSeqCstWriteEvents ev₁ write).modifies =
          false := by rw [hc]; rfl
      obtain ⟨hsrc, hne⟩ : Graph.Source e.graph _ w ∧ _ := hw.resolve_right (by simp [hmod])
      exact precedes_of_load h hop hr hgrow hat hm hsrc (by simpa [hrf] using hne)
    | readModifyWrite x t a b s f cs =>
      obtain rfl := Option.some.inj hev
      have hop' := hop m w hm (by rw [hloc, hc]; simp [Graph.fresh, Graph.casEvent])
      refine hgrow.precedes_of_seen h.graph (s = .seqCst ∧ f = .seqCst) ?_ ?_
      · rintro ⟨rfl, rfl⟩
        rw [hc]
        by_cases hv : (e.graph.event write).getWrittenValue = a <;>
          simp [Event.setReadFrom, Graph.fresh, Graph.casEvent, Event.isSeqCst,
            Event.memoryOrder, hv]
      · rw [hc]
        simpa [Graph.fresh, Graph.casEvent] using hop'
    | unconditionalReadModifyWrite x t f a o cs =>
      obtain rfl := Option.some.inj hev
      have hop' := hop m w hm (by rw [hloc, hc]; rfl)
      refine hgrow.precedes_of_seen h.graph (o = .seqCst) ?_ ?_
      · rintro rfl
        rw [hc]
        rfl
      · rw [hc]
        exact hop'
    | _ => cases hev

/-- The modification order lets nothing between a read-modify-write and what it reads from. -/
theorem atomic_of_run (h : Run ObservesRmws e) : e.graph.Atomic := by
  refine Run.induction (Q := Graph.Atomic) (fun g n m w hm => ?_)
    (fun e op g' ev l hinv _ hop hperf hgrow hat => ?_) h
  · obtain ⟨hlt, hmod, -⟩ := hm
    rw [g.length_events_reset] at hlt
    rw [g.event_reset n hlt] at hmod
    simp [Graph.dummyEvent, Event.isModifyRMW] at hmod
  · exact hgrow.atomic hinv.graph hat fun m w hm hw =>
      precedes_of_observesRmws hinv hop hperf hgrow hat hm hw

/-- **Atomicity.** In every state reached by calls that get ahead of no read-modify-write their
thread has not seen: nothing lies between a modifying read-modify-write and the event it reads
from, and no other one reads from that event. -/
theorem atomicity_of_observesRmws {e : ExecutionGraph V} (h : Run ObservesRmws e) {m w : ℕ}
    (hm : e.graph.ModifiesFrom m w) :
    (∀ w', ¬ (TransGen e.graph.Mo w w' ∧ TransGen e.graph.Mo w' m)) ∧
      ∀ m', e.graph.ModifiesFrom m' w → m' = m := by
  have hat := atomic_of_run h
  have hinv := h.reachable.inv.graph
  refine ⟨fun w' ⟨hww', hw'm⟩ => ?_, fun m' hm' => ?_⟩
  · rcases hat.of_transGen hm hww' with rfl | hmw'
    · exact hinv.acyclic m hw'm
    · exact hinv.acyclic m (hmw'.trans hw'm)
  · by_contra hne
    have hwm := hinv.rmw m hm.1 hm.modifies w hm.2.2
    have hwm' := hinv.rmw m' hm'.1 hm'.modifies w hm'.2.2
    exact hinv.acyclic m ((hat m w hm m' hwm' hne).trans (hat m' w hm' m hwm (Ne.symm hne)))

/-- Two threads, and a location to which thread `0` has added. -/
def addedOnce : ExecutionGraph (BitVec 32) :=
  ((({} : ExecutionGraph (BitVec 32)).next (.reset 2)).next (.registerLocation 0)).next
    (.unconditionalReadModifyWrite 0 0 .fetchAdd 1 .relaxed [2])

/-- After that, thread `1` reads from the `fetch_add` and adds to the location. -/
def addedTwice : ExecutionGraph (BitVec 32) :=
  (addedOnce.next (.load 0 1 .relaxed [3, 2])).next
    (.unconditionalReadModifyWrite 0 1 .fetchAdd 1 .relaxed [3, 2])

theorem run_addedTwice : Run ObservesRmws addedTwice := by
  have hadd : Run ObservesRmws addedOnce := by
    refine ((Run.init.next (by decide +kernel) trivial).next (by decide +kernel) trivial).next
      (by decide +kernel) ?_
    -- there is no read-modify-write yet
    rintro m w ⟨hlt, hmod, -⟩ -
    exact absurd hmod (by revert m; decide +kernel)
  refine (hadd.next (by decide +kernel) ?_).next (by decide +kernel) ?_
  · -- thread `1` has not seen what the `fetch_add` reads from
    rintro m w hm (⟨hsc, -⟩ | ⟨i, hi, hloc, hhb, -⟩)
    · cases hsc
    · exact absurd hhb (by revert i; decide +kernel)
  · -- its load has seen the `fetch_add`
    rintro m w ⟨hlt, hmod, -⟩ -
    obtain rfl : m = 3 := by revert m; decide +kernel
    exact ⟨3, .inr ⟨4, by decide +kernel⟩, .inl rfl⟩

/-- The second `fetch_add` reads from the first one, and nothing else does. -/
theorem atomicity_addedTwice :
    addedTwice.graph.ModifiesFrom 5 3 ∧
      (∀ w, ¬ (TransGen addedTwice.graph.Mo 3 w ∧ TransGen addedTwice.graph.Mo w 5)) ∧
      ∀ m, addedTwice.graph.ModifiesFrom m 3 → m = 5 :=
  have h : addedTwice.graph.ModifiesFrom 5 3 := by decide +kernel
  ⟨h, atomicity_of_observesRmws run_addedTwice h⟩

/-- Thread `1` adds twice to a location, then thread `2` adds to it and reads from the first of
the two. -/
def threeAdds : ExecutionGraph (BitVec 32) :=
  after [.reset 3, .registerLocation 0,
    .unconditionalReadModifyWrite 0 1 .fetchAdd 1 .relaxed [3],
    .unconditionalReadModifyWrite 0 1 .fetchAdd 1 .relaxed [4, 3],
    .unconditionalReadModifyWrite 0 2 .fetchAdd 1 .relaxed [4, 3, 5]]

/-- **A lost update**: the events `5` and `6` both modify and both read from event `4`, and `6` is
recorded between `4` and `5`. -/
theorem lost_update :
    Reachable threeAdds ∧ threeAdds.graph.ModifiesFrom 5 4 ∧ threeAdds.graph.ModifiesFrom 6 4 ∧
      TransGen threeAdds.graph.Mo 4 6 ∧ TransGen threeAdds.graph.Mo 6 5 :=
  ⟨reachable_after _, by decide +kernel, by decide +kernel, .single (by decide +kernel),
    .single (by decide +kernel)⟩

end ExecutionGraph

end Wmm

end LTest
