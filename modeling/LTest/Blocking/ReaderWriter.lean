import LTest.Blocking.SharedMutex

/-!
# The shared mutex is a reader-writer lock

Every turn keeps the invariant of the shared mutex. A writer announces itself in `write_` before the
readers have left, so `write_` names the thread that holds the lock exclusively or waits for the
readers; the queue of `no_readers_` holds at most that thread, and only while there are readers.

What the lock is for is said by `RwStep`, which knows only who holds it in which mode.

## Main definitions

* `RwStep` — a reader-writer lock by the modes in which it is held
* `ReaderWriterLock` — exclusion, the count of readers, and no lost wakeups

## Main results

* `Turn.inv` — a turn keeps the invariant
* `SharedConfig.Inv.rwStep`, `SharedConfig.refines` — turns and runs refine the reader-writer lock
* `shared_mutex_correct` — the headline
-/

namespace LTest

namespace Blocking

open Scheduler (BlockManager)

open Config SharedConfig

variable {n : ℕ}

/-! ### The invariant -/

namespace Turn

variable {A : Addresses} {s s' : SharedConfig n} {t : Fin n} {point : Control}

/-- Only thread `t` moves, and no other thread becomes or stops being the writer. -/
theorem placed_of_others (h : s.Inv A) (hothers : ∀ u, u ≠ t → s'.threads u = s.threads u)
    (hwrite : ∀ u, u ≠ t → (s'.mutex.write = some u ↔ s.mutex.write = some u))
    (ht : Placed A s'.mutex.write t (s'.threads t)) (u : Fin n) :
    Placed A s'.mutex.write u (s'.threads u) := by
  by_cases hu : u = t
  · exact hu ▸ ht
  · have hold := h.placed u
    rw [hothers u hu]
    exact ⟨hold.settled, (hwrite u hu).trans hold.writer, hold.fstate, hold.awaits⟩

/-- The queue of `no_readers_` does not change, and thread `t` is not in it. -/
theorem noReaders_of_others (h : s.Inv A) (hothers : ∀ u, u ≠ t → s'.threads u = s.threads u)
    (ht : s.control t ≠ .lockAwaitsReaders)
    (hqueue : s'.blocks.queues A.noReaders = s.blocks.queues A.noReaders)
    (hcount : 0 < s.mutex.readerCount → s.blocks.queues A.noReaders ≠ [] → 0 < s'.mutex.readerCount)
    (hne : s'.blocks.queues A.noReaders ≠ []) :
    0 < s'.mutex.readerCount ∧ ∃ u, s'.control u = .lockAwaitsReaders ∧
      s'.blocks.queues A.noReaders = [(s'.threads u).task] := by
  rw [hqueue] at hne ⊢
  obtain ⟨hpos, u, hu, hq⟩ := h.noReaders hne
  have hut : u ≠ t := by
    rintro rfl
    exact ht hu
  refine ⟨hcount hpos hne, u, ?_, ?_⟩
  · rw [Config.control, hothers u hut]
    exact hu
  · rw [hothers u hut]
    exact hq

theorem control_ne_of_held {mode : Mode} (h : s.control t = .holding mode) :
    s.control t ≠ .lockAwaitsReaders := by
  rw [h]
  exact Control.noConfusion

theorem threads_stop (u : Fin n) (hu : u ≠ t) : (stop t point s).threads u = s.threads u := by
  simp [stop, hu]

theorem threads_wait {addr : ℕ} (u : Fin n) (hu : u ≠ t) :
    (stop t point (setBlocked t addr s)).threads u = s.threads u := by
  simp [stop, setBlocked, hu]

theorem readers_stop_of_not (hheld : s.held t ≠ some .shared) (hpoint : point.held ≠ some .shared) :
    readers (stop t point s) = s.readers := by
  rw [readers_stop, if_neg hpoint, Finset.erase_eq_of_notMem]
  exact fun hmem => hheld (mem_readers.1 hmem)

theorem inv_newTask (h : s.Inv A) {task : ℕ} (hcontrol : ¬ (s.control t).Inside) :
    SharedConfig.Inv A (s.newTask t task) := by
  have hothers : ∀ u, u ≠ t → (s.newTask t task).threads u = s.threads u := by
    intro u hu
    simp [Config.newTask, hu]
  have ht : s.control t ≠ .lockAwaitsReaders := by
    intro hc
    rw [hc] at hcontrol
    exact hcontrol trivial
  have hplaced : Placed A s.mutex.write t ((s.newTask t task).threads t) := by
    have hold := h.placed t
    refine ⟨?_, ?_, ?_, ?_⟩
    · simpa [Config.newTask, Config.control] using hold.settled
    · simpa [Config.newTask, Config.control] using hold.writer
    · simp
    · intro hc
      exact absurd (by simpa [Config.newTask] using hc) ht
  constructor
  case unlocked => exact h.unlocked
  case nobody => exact h.nobody
  case placed => exact placed_of_others h hothers (fun _ _ => .rfl) hplaced
  case count =>
    rw [readers_congr (s := s)]
    · exact h.count
    · exact funext fun u => congrArg Control.held (control_newTask t u s task)
  case writeEntered => exact h.writeEntered
  case noReaders => exact noReaders_of_others h hothers ht rfl fun hpos _ => hpos

theorem inv_awaitWriter (h : s.Inv A)
    (hpoint : point = .lockAwaitsWriter ∨ point = .sharedAwaitsWriter) (hheld : s.held t = none)
    (hwrite : ∃ u, u ≠ t ∧ s.mutex.write = some u) :
    SharedConfig.Inv A (stop t point (setBlocked t A.writeEntered s)) := by
  obtain ⟨w, hwt, hw⟩ := hwrite
  have hp : point.held = none := by obtain rfl | rfl := hpoint <;> rfl
  have hplaced : Placed A s.mutex.write t
      ((stop t point (setBlocked t A.writeEntered s)).threads t) := by
    refine ⟨?_, ?_, ?_, ?_⟩
    · obtain rfl | rfl := hpoint <;> simp [stop]
    · obtain rfl | rfl := hpoint <;> simp [stop, hw, hwt]
    · simp
    · obtain rfl | rfl := hpoint <;> simp [stop]
  have ht : s.control t ≠ .lockAwaitsReaders := fun hc =>
    hwt (Option.some.inj (hw.symm.trans ((h.writer t).2 (.inr hc))))
  constructor
  case unlocked => exact h.unlocked
  case nobody => simpa [A.locked_ne_writeEntered] using h.nobody
  case placed => exact placed_of_others h threads_wait (fun _ _ => .rfl) hplaced
  case count =>
    rw [readers_stop_of_not (by simp [held_setBlocked, hheld]) (by simp [hp]), readers_setBlocked]
    exact h.count
  case writeEntered => simp [hw]
  case noReaders =>
    refine noReaders_of_others h threads_wait ht ?_ fun hpos _ => hpos
    simp [A.writeEntered_ne_noReaders.symm]

theorem inv_awaitReaders (h : s.Inv A) (hheld : s.held t = none)
    (hwrite : s.mutex.write = none ∨ s.mutex.write = some t)
    (hqueue : s.blocks.queues A.noReaders = []) (hreaders : 0 < s.mutex.readerCount) :
    SharedConfig.Inv A (stop t .lockAwaitsReaders
      (setBlocked t A.noReaders { s with mutex := { s.mutex with write := some t } })) := by
  have hplaced : Placed A (some t) t ((stop t .lockAwaitsReaders
      (setBlocked t A.noReaders { s with mutex := { s.mutex with write := some t } })).threads t) :=
    ⟨by simp [stop], by simp [stop], by simp, by simp⟩
  constructor
  case unlocked => exact h.unlocked
  case nobody => simpa [A.locked_ne_noReaders] using h.nobody
  case placed =>
    refine placed_of_others h (fun u hu => threads_wait u hu) (fun u hu => ?_) hplaced
    obtain hw | hw := hwrite <;> simp [hw, hu.symm]
  case count =>
    rw [readers_stop_of_not _ (by decide), readers_setBlocked]
    · exact h.count
    · rw [held_setBlocked]
      exact fun hs => by cases hheld.symm.trans hs
  case writeEntered => simp
  case noReaders =>
    intro _
    exact ⟨hreaders, t, by simp, by simp [hqueue]⟩

theorem inv_acquireExclusive (h : s.Inv A) (hheld : s.held t = none)
    (hwrite : s.mutex.write = none ∨ s.mutex.write = some t)
    (hqueue : s.blocks.queues A.noReaders = []) :
    SharedConfig.Inv A
      (stop t (.holding .exclusive) { s with mutex := { s.mutex with write := some t } }) := by
  have hplaced : Placed A (some t) t ((stop t (.holding .exclusive)
      { s with mutex := { s.mutex with write := some t } }).threads t) :=
    ⟨by simp [stop], by simp [stop], by simpa using (h.placed t).fstate, by simp [stop]⟩
  constructor
  case unlocked => exact h.unlocked
  case nobody => exact h.nobody
  case placed =>
    refine placed_of_others h (fun u hu => threads_stop u hu) (fun u hu => ?_) hplaced
    obtain hw | hw := hwrite <;> simp [hw, hu.symm]
  case count =>
    rw [readers_stop_of_not _ (by decide)]
    · exact h.count
    · exact fun hs => by cases hheld.symm.trans hs
  case writeEntered => simp
  case noReaders =>
    intro hne
    exact absurd hqueue hne

theorem inv_acquireShared (h : s.Inv A) (hheld : s.held t = none) (hwrite : s.mutex.write = none) :
    SharedConfig.Inv A (stop t (.holding .shared)
      { s with mutex := { s.mutex with readerCount := s.mutex.readerCount + 1 } }) := by
  have hplaced : Placed A s.mutex.write t ((stop t (.holding .shared)
      { s with mutex := { s.mutex with readerCount := s.mutex.readerCount + 1 } }).threads t) :=
    ⟨by simp [stop], by simp [stop, hwrite], by simpa using (h.placed t).fstate, by simp [stop]⟩
  have ht : s.control t ≠ .lockAwaitsReaders := fun hc => by
    cases hwrite.symm.trans ((h.writer t).2 (.inr hc))
  constructor
  case unlocked => exact h.unlocked
  case nobody => exact h.nobody
  case placed =>
    exact placed_of_others h (fun u hu => threads_stop u hu) (fun _ _ => .rfl) hplaced
  case count =>
    have hnot : t ∉ s.readers := fun hmem => by cases hheld.symm.trans (mem_readers.1 hmem)
    rw [readers_stop, if_pos (show (Control.holding .shared).held = some .shared from rfl)]
    show s.mutex.readerCount + 1 = (insert t s.readers).card
    rw [Finset.card_insert_of_notMem hnot, h.count]
    rfl
  case writeEntered => exact h.writeEntered
  case noReaders =>
    exact noReaders_of_others h (fun u hu => threads_stop u hu) ht rfl fun hpos _ =>
      Int.lt_add_one_of_le hpos.le

theorem inv_releaseExclusive (h : s.Inv A) (hcontrol : s.control t = .holding .exclusive)
    (hwrite : s.mutex.write = some t) :
    SharedConfig.Inv A (stop t .outside (releaseWriter A s)) := by
  have hplaced : Placed A none t ((stop t .outside (releaseWriter A s)).threads t) := by
    refine ⟨by simp [stop], by simp [stop], ?_, by simp [stop]⟩
    rw [fstate_stop]
    exact (h.placed t).fstate
  constructor
  case unlocked => exact h.unlocked
  case nobody =>
    rw [← h.nobody]
    exact Function.update_of_ne A.locked_ne_writeEntered _ _
  case placed =>
    refine placed_of_others h (fun u hu => threads_stop u hu) (fun u hu => ?_) hplaced
    simp [releaseWriter, notifyAll, hwrite, hu.symm]
  case count =>
    rw [readers_stop_of_not _ (by decide)]
    · exact h.count
    · show (s.control t).held ≠ _
      rw [hcontrol]
      decide
  case writeEntered =>
    intro hne
    exact absurd (Function.update_self _ _ _) hne
  case noReaders =>
    refine noReaders_of_others h (fun u hu => threads_stop u hu) (control_ne_of_held hcontrol) ?_
      fun hpos _ => hpos
    exact Function.update_of_ne A.writeEntered_ne_noReaders.symm _ _


section

variable (s)

theorem mutex_releaseReader :
    (releaseReader A s).mutex = { s.mutex with readerCount := s.mutex.readerCount - 1 } := by
  rw [releaseReader]
  split <;> rfl

theorem threads_releaseReader : (releaseReader A s).threads = s.threads := by
  rw [releaseReader]
  split <;> rfl

theorem held_releaseReader : held (releaseReader A s) = s.held := by
  funext u
  rw [held, Config.control, threads_releaseReader]
  rfl

theorem queues_releaseReader {addr : ℕ} (haddr : addr ≠ A.noReaders) :
    (releaseReader A s).blocks.queues addr = s.blocks.queues addr := by
  rw [releaseReader]
  split
  · exact Function.update_of_ne haddr _ _
  · rfl

end

/-- The last reader wakes the writer that waits. -/
theorem noReaders_releaseReader (h : s.Inv A) :
    (releaseReader A s).blocks.queues A.noReaders = [] ∨
      (releaseReader A s).blocks.queues A.noReaders = s.blocks.queues A.noReaders ∧
        0 < s.mutex.readerCount - 1 := by
  by_cases hnil : s.blocks.queues A.noReaders = []
  · left
    rw [releaseReader]
    split
    · show Function.update s.blocks.queues A.noReaders
        ((s.blocks.queues A.noReaders).drop 1) A.noReaders = []
      rw [Function.update_self, hnil, List.drop_nil]
    · exact hnil
  · obtain ⟨hpos, u, hu, hq⟩ := h.noReaders hnil
    have hw := (h.writer u).2 (.inr hu)
    by_cases hlast : s.mutex.readerCount - 1 = 0
    · left
      rw [releaseReader, if_pos (by simp [SharedMutex.hasWrite, hw, hlast])]
      show Function.update s.blocks.queues A.noReaders
        ((s.blocks.queues A.noReaders).drop 1) A.noReaders = []
      rw [Function.update_self, hq]
      rfl
    · right
      rw [releaseReader, if_neg (by simp [hlast])]
      exact ⟨rfl, by omega⟩

theorem inv_releaseShared (h : s.Inv A) (hcontrol : s.control t = .holding .shared) :
    SharedConfig.Inv A (stop t .outside (releaseReader A s)) := by
  have hwrite : s.mutex.write ≠ some t := by
    rw [Ne, h.writer, hcontrol]
    decide
  have hothers : ∀ u, u ≠ t → (stop t .outside (releaseReader A s)).threads u = s.threads u := by
    intro u hu
    rw [threads_stop u hu, threads_releaseReader]
  have hplaced : Placed A s.mutex.write t ((stop t .outside (releaseReader A s)).threads t) := by
    refine ⟨by simp [stop], by simp [stop, hwrite], ?_, by simp [stop]⟩
    rw [fstate_stop, threads_releaseReader]
    exact (h.placed t).fstate
  constructor
  case unlocked =>
    rw [mutex_stop, mutex_releaseReader]
    exact h.unlocked
  case nobody =>
    rw [blocks_stop, queues_releaseReader s A.locked_ne_noReaders]
    exact h.nobody
  case placed =>
    refine placed_of_others h hothers ?_ ?_
    · rw [mutex_stop, mutex_releaseReader]
      exact fun _ _ => .rfl
    · rw [mutex_stop, mutex_releaseReader]
      exact hplaced
  case count =>
    have hmem : t ∈ s.readers := by
      rw [mem_readers, held, hcontrol]
      rfl
    have hpos := Finset.card_pos.2 ⟨t, hmem⟩
    rw [readers_stop, if_neg (by decide), readers_congr (held_releaseReader s), mutex_stop,
      mutex_releaseReader, Finset.card_erase_of_mem hmem]
    show s.mutex.readerCount - 1 = _
    rw [h.count]
    omega
  case writeEntered =>
    rw [blocks_stop, queues_releaseReader s A.writeEntered_ne_noReaders, mutex_stop,
      mutex_releaseReader]
    exact h.writeEntered
  case noReaders =>
    obtain hnil | ⟨hqueue, hpos⟩ := noReaders_releaseReader h
    · intro hne
      exact absurd hnil hne
    · refine noReaders_of_others h hothers (control_ne_of_held hcontrol) hqueue fun _ _ => ?_
      rw [mutex_stop, mutex_releaseReader]
      exact hpos

/-- **The invariant is kept.** -/
theorem inv (h : s.Inv A) (hturn : Turn A s s') : s'.Inv A := by
  cases hturn with
  | newTask hcontrol => exact inv_newTask h hcontrol
  | awaitWriter hpoint hheld hwrite => exact inv_awaitWriter h hpoint hheld hwrite
  | awaitReaders hheld hwrite hqueue hreaders =>
    exact inv_awaitReaders h hheld hwrite hqueue hreaders
  | acquireExclusive hheld hwrite hqueue => exact inv_acquireExclusive h hheld hwrite hqueue
  | acquireShared hheld hwrite => exact inv_acquireShared h hheld hwrite
  | releaseExclusive hcontrol hwrite => exact inv_releaseExclusive h hcontrol hwrite
  | releaseShared hcontrol => exact inv_releaseShared h hcontrol

end Turn

/-! ### The reader-writer lock -/

/-- A reader-writer lock by the modes in which it is held: it is acquired when it may be, and
released by those who hold it. -/
inductive RwStep {ι : Type*} [DecidableEq ι] (h : ι → Option Mode) : (ι → Option Mode) → Prop
  | acquireExclusive {t : ι} (hfree : ∀ u, h u = none) :
      RwStep h (Function.update h t (some .exclusive))
  | acquireShared {t : ι} (ht : h t = none) (hfree : ∀ u, h u ≠ some .exclusive) :
      RwStep h (Function.update h t (some .shared))
  | release {t : ι} (ht : h t ≠ none) : RwStep h (Function.update h t none)

/-- While it is held exclusively, it is held by one thread only. -/
def Exclusion {ι : Type*} (h : ι → Option Mode) : Prop :=
  ∀ t u mode, h t = some .exclusive → h u = some mode → u = t

theorem RwStep.exclusion {ι : Type*} [DecidableEq ι] {h h' : ι → Option Mode} (hstep : RwStep h h')
    (hex : Exclusion h) : Exclusion h' := by
  cases hstep with
  | @acquireExclusive t hfree =>
    have honly : ∀ u mode, Function.update h t (some .exclusive) u = some mode → u = t := by
      intro u mode hu
      by_contra hne
      rw [Function.update_of_ne hne, hfree u] at hu
      cases hu
    intro u v mode hu hv
    rw [honly u _ hu, honly v _ hv]
  | @acquireShared t _ hfree =>
    intro u v mode hu _
    have hut : u ≠ t := by
      rintro rfl
      rw [Function.update_self] at hu
      cases hu
    rw [Function.update_of_ne hut] at hu
    exact absurd hu (hfree u)
  | @release t _ =>
    intro u v mode hu hv
    have hne : ∀ w m, Function.update h t none w = some m → w ≠ t := by
      rintro w m hw rfl
      rw [Function.update_self] at hw
      cases hw
    rw [Function.update_of_ne (hne u _ hu)] at hu
    rw [Function.update_of_ne (hne v _ hv)] at hv
    exact hex u v mode hu hv

namespace SharedConfig

variable {A : Addresses} {s s' : SharedConfig n} {t : Fin n}

namespace Inv

variable (h : s.Inv A)
include h

theorem held_eq_exclusive (hheld : s.held t = some .exclusive) : s.mutex.write = some t := by
  rw [h.writer]
  rw [held] at hheld
  obtain hc | ⟨mode, hc⟩ | hc | hc | hc := h.settled t
  all_goals rw [hc] at hheld
  · cases hheld
  · cases hheld
    exact .inl hc
  all_goals cases hheld

/-- Nobody holds the lock when there are no readers and no other thread is the writer. -/
theorem held_eq_none (hheld : s.held t = none) (hreaders : s.mutex.readerCount ≤ 0)
    (hwrite : s.mutex.write = none ∨ s.mutex.write = some t) (u : Fin n) : s.held u = none := by
  match hu : s.held u with
  | none => rfl
  | some .shared =>
    have hpos := Finset.card_pos.2 ⟨u, mem_readers.2 hu⟩
    rw [h.count] at hreaders
    omega
  | some .exclusive =>
    have hw := h.held_eq_exclusive hu
    obtain hnone | hsome := hwrite
    · cases hnone.symm.trans hw
    · cases hsome.symm.trans hw
      cases hheld.symm.trans hu

/-- **A turn refines the reader-writer lock**: it is one of its steps, or the holders stay the
same. -/
theorem rwStep (hturn : Turn A s s') : s'.held = s.held ∨ RwStep s.held s'.held := by
  cases hturn with
  | @newTask t task _ =>
    exact .inl (funext fun u => congrArg Control.held (control_newTask t u s task))
  | @awaitWriter t point hpoint hheld _ =>
    left
    rw [held_stop, held_setBlocked, Function.update_eq_self_iff, hheld]
    obtain rfl | rfl := hpoint <;> rfl
  | @awaitReaders t hheld _ _ _ =>
    left
    rw [held_stop, held_setBlocked]
    exact Function.update_eq_self_iff.2 hheld.symm
  | @acquireExclusive t hheld hwrite _ hreaders =>
    right
    rw [held_stop]
    exact .acquireExclusive (h.held_eq_none hheld hreaders hwrite)
  | @acquireShared t hheld hwrite =>
    right
    rw [held_stop]
    refine .acquireShared hheld fun u hu => ?_
    cases hwrite.symm.trans (h.held_eq_exclusive hu)
  | @releaseExclusive t hcontrol _ =>
    right
    rw [held_stop]
    refine .release ?_
    show (s.control t).held ≠ none
    rw [hcontrol]
    decide
  | @releaseShared t hcontrol _ =>
    right
    rw [held_stop, Turn.held_releaseReader]
    refine .release ?_
    rw [held, hcontrol]
    decide

/-- Whoever is blocked waits for a writer, or for readers. -/
theorem blocked_cases (hblocked : s.isBlocked t = true) :
    (s.threads t).fstate = A.writeEntered ∧ s.mutex.write ≠ none ∨
      (s.threads t).fstate = A.noReaders ∧ 0 < s.mutex.readerCount := by
  rw [isBlocked, BlockManager.isBlocked, Bool.and_eq_true, List.contains_iff_mem] at hblocked
  obtain ⟨hzero, hmem⟩ := hblocked
  obtain hf | hf | hf := (h.placed t).fstate
  · simp [hf] at hzero
  · rw [hf] at hmem
    exact .inl ⟨hf, h.writeEntered (List.ne_nil_of_mem hmem)⟩
  · rw [hf] at hmem
    exact .inr ⟨hf, (h.noReaders (List.ne_nil_of_mem hmem)).1⟩

theorem exists_reader (hpos : 0 < s.mutex.readerCount) : ∃ u, s.held u = some .shared := by
  rw [h.count] at hpos
  obtain ⟨u, hu⟩ := Finset.card_pos.1 (Int.natCast_pos.1 hpos)
  exact ⟨u, mem_readers.1 hu⟩

/-- The writer holds the lock, or is awake in `lock`, or waits for somebody who reads. -/
theorem writer_cases {w : Fin n} (hw : s.mutex.write = some w) :
    s.held w = some .exclusive ∨ ((s.control w).Inside ∧ s.isBlocked w = false) ∨
      ∃ u, s.held u = some .shared := by
  obtain hc | hc := (h.writer w).1 hw
  · left
    rw [held, hc]
    rfl
  · right
    cases hb : s.isBlocked w with
    | false =>
      left
      rw [hc]
      exact ⟨trivial, rfl⟩
    | true =>
      right
      obtain ⟨hf, _⟩ | ⟨_, hpos⟩ := h.blocked_cases hb
      · exact absurd (hf.symm.trans ((h.placed w).awaits hc)) A.writeEntered_ne_noReaders
      · exact h.exists_reader hpos

end Inv

theorem inv_of_initial (h : Initial A s) : s.Inv A where
  unlocked := by rw [h.mutex]
  nobody := h.locked
  placed t := by
    have hc : (s.threads t).control = .outside := h.outside t
    exact ⟨.inl hc, by simp [h.mutex, hc], .inl (h.fstate t), by simp [hc]⟩
  count := by
    have hnone : s.readers = ∅ := by
      refine Finset.eq_empty_of_forall_notMem fun t ht => ?_
      rw [mem_readers, held, h.outside] at ht
      cases ht
    rw [h.mutex, hnone]
    rfl
  writeEntered hne := absurd h.writeEntered hne
  noReaders hne := absurd h.noReaders hne

theorem inv_of_reachable (h : Reachable A s) : s.Inv A :=
  h.invariant (fun _ => inv_of_initial) fun _ _ _ hinv hm hs => hs ▸ (hinv.turn hm).inv hinv

/-- **Runs refine the reader-writer lock.** -/
theorem refines (h : Reachable A s) : Relation.ReflTransGen RwStep (fun _ => none) s.held := by
  induction h with
  | init h =>
    have hnone : (fun _ => none) = held _ := funext fun t => by rw [held, h.outside]; rfl
    rw [← hnone]
  | step hr hm hs ih =>
    have hinv := inv_of_reachable hr
    obtain hsame | hstep := hinv.rwStep (hs ▸ hinv.turn hm)
    · rwa [hsame]
    · exact ih.tail hstep

theorem exclusion_of_reachable (h : Reachable A s) : Exclusion s.held := by
  have hrun := refines h
  generalize s.held = held at hrun
  induction hrun with
  | refl => exact fun _ _ _ hu => by cases hu
  | tail _ hstep ih => exact hstep.exclusion ih

end SharedConfig

/-- A reader-writer lock whose count is right and whose waiters are not forgotten. -/
structure ReaderWriterLock (s : SharedConfig n) : Prop where
  /-- While a thread has returned from `lock` and not unlocked, no other thread holds the lock. -/
  exclusive : ∀ t u mode, s.held t = some .exclusive → s.held u = some mode → u = t
  /-- `reader_count_` is the number of threads that read. -/
  counted : s.mutex.readerCount = s.readers.card
  /-- While a thread is blocked in `lock` or `lock_shared`, another thread holds the lock or can
  run in one of its operations. -/
  awake : ∀ t, (s.control t).Acquires → s.isBlocked t = true →
    ∃ u, u ≠ t ∧ ((∃ mode, s.held u = some mode) ∨
      (s.control u).Inside ∧ s.isBlocked u = false)

/-- **The simulated shared mutex is a reader-writer lock without lost wakeups**: for any number of
threads with sections that are not nested, in every state of every run in which the scheduler
resumes only coroutines that are not blocked. -/
theorem shared_mutex_correct {A : Addresses} {s : SharedConfig n} (h : Reachable A s) :
    ReaderWriterLock s := by
  have hinv := inv_of_reachable h
  refine ⟨exclusion_of_reachable h, hinv.count, fun t hacq hblocked => ?_⟩
  have hne : ∀ {u mode}, s.held u = some mode → u ≠ t := by
    rintro u mode hu rfl
    rw [held] at hu
    obtain hc | ⟨m, hc⟩ | hc | hc | hc := hinv.settled u
    all_goals rw [hc] at hu hacq
    all_goals first | exact hacq | cases hu
  have hreader : (∃ u, s.held u = some .shared) → ∃ u, u ≠ t ∧ ((∃ mode, s.held u = some mode) ∨
      (s.control u).Inside ∧ s.isBlocked u = false) := by
    rintro ⟨u, hu⟩
    exact ⟨u, hne hu, .inl ⟨_, hu⟩⟩
  obtain ⟨hf, hw⟩ | ⟨_, hpos⟩ := hinv.blocked_cases hblocked
  · obtain ⟨w, hw⟩ := Option.ne_none_iff_exists'.1 hw
    obtain hheld | ⟨hin, hrun⟩ | hread := hinv.writer_cases hw
    · exact ⟨w, hne hheld, .inl ⟨_, hheld⟩⟩
    · refine ⟨w, ?_, .inr ⟨hin, hrun⟩⟩
      rintro rfl
      rw [hblocked] at hrun
      cases hrun
    · exact hreader hread
  · exact hreader (hinv.exists_reader hpos)

/-- The addresses `1`, `2` and `3`. -/
def threeAddresses : Addresses :=
  ⟨1, 2, 3, by decide, by decide, by decide, by decide, by decide, by decide⟩

/-- Two threads that have not used the lock. -/
def twoThreads : SharedConfig 2 := ⟨{}, {}, fun t => ⟨t + 1, 0, .outside⟩⟩

/-- Thread `0` reads, and thread `1` has announced itself as a writer. -/
def writerWaits : SharedConfig 2 :=
  (twoThreads.move threeAddresses (.lockShared ⟨0, Nat.two_pos⟩)).move threeAddresses
    (.lock ⟨1, Nat.one_lt_two⟩)

theorem reachable_writerWaits : Reachable threeAddresses writerWaits := by
  refine .step (.step (.init ?_) (m := .lockShared 0) ?_ rfl) (m := .lock 1) ?_ rfl
  · refine ⟨rfl, rfl, rfl, rfl, fun _ => rfl, fun _ => rfl, fun t u htu => ?_⟩
    exact Fin.ext (Nat.succ.inj htu)
  · exact ⟨rfl, rfl⟩
  · exact ⟨rfl, rfl⟩

theorem shared_mutex_correct_writerWaits :
    writerWaits.isBlocked 1 = true ∧ writerWaits.mutex.readerCount = 1 ∧
      ReaderWriterLock writerWaits :=
  ⟨rfl, rfl, shared_mutex_correct reachable_writerWaits⟩

end Blocking

end LTest
