import ProtonDrive.ArraySlices
import ProtonDrive.EventPoller

/-!
# The event queue in memory

The queue of the poller is a slice that `enqueue` appends to and `Drain` takes away. The slice
a `Drain` returns is read while further events are enqueued, so what it holds is a matter of the
arrays behind the slices. Both calls hold the lock, hence they are single steps.
-/

namespace ProtonDrive.EventQueue
open ArraySlices EventPoller

structure Queue where
  memory : Memory DriveEvent
  queue : Option Slice

def Queue.enqueue (grow : ℕ → ℕ) (q : Queue) (ev : DriveEvent) : Queue :=
  let queue := if eventBufferSize ≤ length q.queue then tail q.queue else q.queue
  let appended := append grow q.memory queue ev
  ⟨appended.1, some appended.2⟩

/-- `Drain`: the slice it returns, and the queue it leaves. -/
def Queue.drain (q : Queue) : Option Slice × Queue :=
  if length q.queue = 0 then (none, q) else (q.queue, { q with queue := none })

inductive Call
  | enqueue (ev : DriveEvent)
  | drain
  deriving DecidableEq, Repr

/-- The queue, and the slices the drains have returned so far. -/
structure Run where
  queue : Queue
  returned : List (Option Slice)

def Run.step (grow : ℕ → ℕ) (r : Run) : Call → Run
  | .enqueue ev => { r with queue := r.queue.enqueue grow ev }
  | .drain => ⟨r.queue.drain.2, r.returned ++ [r.queue.drain.1]⟩

def runCalls (grow : ℕ → ℕ) (calls : List Call) : Run :=
  calls.foldl (Run.step grow) ⟨⟨[], none⟩, []⟩

/-- The events enqueued before each drain since the one before it, and since the last one. -/
structure Batches where
  drained : List (List DriveEvent)
  since : List DriveEvent

def Batches.step (b : Batches) : Call → Batches
  | .enqueue ev => { b with since := b.since ++ [ev] }
  | .drain => ⟨b.drained ++ [b.since], []⟩

def batches (calls : List Call) : Batches := calls.foldl Batches.step ⟨[], []⟩

def enqueued (calls : List Call) : List DriveEvent :=
  calls.filterMap fun
    | .enqueue ev => some ev
    | .drain => none

/-- As many of the last events as the queue has room for. -/
def newest (evs : List DriveEvent) : List DriveEvent := evs.drop (evs.length - eventBufferSize)

section Newest

variable {evs : List DriveEvent}

theorem length_newest (evs : List DriveEvent) :
    (newest evs).length = min eventBufferSize evs.length := by
  rw [newest, List.length_drop]
  omega

theorem newest_eq_nil_iff : newest evs = [] ↔ evs = [] := by
  rw [← List.length_eq_zero_iff, ← List.length_eq_zero_iff, length_newest, eventBufferSize]
  omega

/-- A full queue loses its oldest event when one is added. -/
theorem enqueue_newest (evs : List DriveEvent) (ev : DriveEvent) :
    EventPoller.enqueue (newest evs) ev = newest (evs ++ [ev]) := by
  have hsize : 0 < eventBufferSize := by decide
  rw [EventPoller.enqueue, length_newest]
  simp only [newest, List.length_append, List.length_singleton]
  split_ifs with h
  · rw [List.drop_drop, List.drop_append_of_le_length (by omega)]
    congr 2
    omega
  · rw [show evs.length - eventBufferSize = 0 by omega,
      show evs.length + 1 - eventBufferSize = 0 by omega, List.drop_zero, List.drop_zero]

/-- An event with few events after it is kept, and so are they. -/
theorem newest_split {before after : List DriveEvent} {ev : DriveEvent}
    (h : evs = before ++ ev :: after) (hfew : after.length < eventBufferSize) :
    ev :: after <:+ newest evs := by
  subst h
  rw [newest, List.length_append, List.length_cons, List.drop_append_of_le_length (by omega)]
  exact List.suffix_append _ _

end Newest

/-- What `enqueue` does to the queue and to every slice of another array. -/
theorem Queue.enqueue_spec (grow : ℕ → ℕ) {q : Queue} (hq : Valid q.memory q.queue)
    (ev : DriveEvent) :
    let q' := q.enqueue grow ev
    Valid q'.memory q'.queue ∧
      contents q'.memory q'.queue = EventPoller.enqueue (contents q.memory q.queue) ev ∧
      ∀ t : Slice, t.Valid q.memory → (∀ u ∈ q.queue, t.array ≠ u.array) →
        t.Valid q'.memory ∧ t.contents q'.memory = t.contents q.memory ∧
          ∀ u ∈ q'.queue, t.array ≠ u.array := by
  -- making room leaves the array as it is
  let room := if eventBufferSize ≤ length q.queue then tail q.queue else q.queue
  have harray : ∀ v ∈ room, ∃ u ∈ q.queue, v.array = u.array := by
    intro v hv
    simp only [room] at hv
    split_ifs at hv
    · obtain ⟨u, hu, rfl⟩ := Option.map_eq_some_iff.mp hv
      exact ⟨u, hu, rfl⟩
    · exact ⟨v, hv, rfl⟩
  have hroom : Valid q.memory room := by
    simp only [room]
    split_ifs with hfull
    · exact valid_tail hq (lt_of_lt_of_le (by decide) hfull)
    · exact hq
  have hcontents : contents q.memory room ++ [ev] =
      EventPoller.enqueue (contents q.memory q.queue) ev := by
    simp only [room, EventPoller.enqueue, length_contents hq]
    split_ifs with hfull
    · rw [contents_tail hq]
    · rfl
  have happ := append_spec grow hroom ev
  refine ⟨?_, happ.contents.trans hcontents, fun t ht hsep => ?_⟩
  · rintro _ ⟨rfl⟩
    exact happ.valid
  · have hsep' : ∀ v ∈ room, t.array ≠ v.array := by
      intro v hv hva
      obtain ⟨u, hu, huv⟩ := harray v hv
      exact hsep u hu (hva.trans huv)
    obtain ⟨hvalid, hkept⟩ := happ.others t ht hsep'
    refine ⟨hvalid, hkept, ?_⟩
    rintro _ ⟨rfl⟩ ha
    rcases happ.array with ⟨v, hv, hva⟩ | hnew
    · exact hsep' v hv (ha.trans hva)
    · exact ht.array_lt.ne (ha.trans hnew)

/-- A returned slice holds the newest events of its batch, and is not in the array that the
queue still grows in. -/
structure Returned (q : Queue) (s : Option Slice) (evs : List DriveEvent) : Prop where
  valid : Valid q.memory s
  contents : ArraySlices.contents q.memory s = newest evs
  nil_iff : s = none ↔ evs = []
  apart : ∀ t ∈ s, ∀ u ∈ q.queue, t.array ≠ u.array

theorem returned_sublist {q : Queue} {slices : List (Option Slice)}
    {drained : List (List DriveEvent)} (h : slices.Forall₂ (Returned q) drained) :
    (slices.map (contents q.memory)).flatten.Sublist drained.flatten := by
  induction h with
  | nil => exact .slnil
  | cons hs _ ih =>
    rw [List.map_cons, List.flatten_cons, List.flatten_cons, hs.contents]
    exact (List.drop_sublist _ _).append ih

/-- What the queue holds and what was returned, over a whole run. -/
structure Consistent (r : Run) (b : Batches) : Prop where
  valid : Valid r.queue.memory r.queue.queue
  pending : contents r.queue.memory r.queue.queue = newest b.since
  returned : r.returned.Forall₂ (Returned r.queue) b.drained

variable {grow : ℕ → ℕ} {r : Run} {b : Batches}

theorem Returned.enqueue {q : Queue} (hq : Valid q.memory q.queue) {s : Option Slice}
    {evs : List DriveEvent} (h : Returned q s evs) (ev : DriveEvent) :
    Returned (q.enqueue grow ev) s evs := by
  cases s with
  | none => exact ⟨nofun, h.contents, h.nil_iff, nofun⟩
  | some t =>
    obtain ⟨hvalid, hkept, hsep⟩ :=
      (Queue.enqueue_spec grow hq ev).2.2 t (h.valid t rfl) (h.apart t rfl)
    refine ⟨?_, hkept.trans h.contents, h.nil_iff, ?_⟩
    · rintro _ ⟨rfl⟩
      exact hvalid
    · rintro _ ⟨rfl⟩
      exact hsep

theorem Consistent.step (h : Consistent r b) (call : Call) :
    Consistent (r.step grow call) (b.step call) := by
  cases call with
  | enqueue ev =>
    obtain ⟨hvalid, hcontents, -⟩ := Queue.enqueue_spec grow h.valid ev
    refine ⟨hvalid, ?_, h.returned.imp fun s evs hs => hs.enqueue h.valid ev⟩
    exact hcontents.trans (by rw [h.pending]; exact enqueue_newest b.since ev)
  | drain =>
    have hlength : length r.queue.queue = 0 ↔ b.since = [] := by
      rw [← length_contents h.valid, h.pending, List.length_eq_zero_iff, newest_eq_nil_iff]
    simp only [Run.step, Batches.step, Queue.drain]
    split_ifs with hempty
    · have hsince := hlength.mp hempty
      have hnil : Returned r.queue none b.since :=
        ⟨nofun, by rw [hsince]; rfl, by simp [hsince], nofun⟩
      exact ⟨h.valid, hsince ▸ h.pending, List.rel_append h.returned (.cons hnil .nil)⟩
    · -- from here on the queue is nil, so no returned slice is in its array
      have hsome : r.queue.queue ≠ none := by
        rintro hq
        exact hempty (by rw [hq]; rfl)
      have hlast : Returned { r.queue with queue := none } r.queue.queue b.since :=
        ⟨h.valid, h.pending, iff_of_false hsome (fun hs => hempty (hlength.mpr hs)), by simp⟩
      have hbefore := h.returned.imp fun s evs hs =>
        (⟨hs.valid, hs.contents, hs.nil_iff, by simp⟩ :
          Returned { r.queue with queue := none } s evs)
      exact ⟨by simp [Valid], rfl, List.rel_append hbefore (.cons hlast .nil)⟩

theorem consistent_run (grow : ℕ → ℕ) (calls : List Call) :
    Consistent (runCalls grow calls) (batches calls) := by
  have hrun : ∀ (calls : List Call) {r : Run} {b : Batches}, Consistent r b →
      Consistent (calls.foldl (Run.step grow) r) (calls.foldl Batches.step b) := by
    intro calls
    induction calls with
    | nil => exact id
    | cons c calls ih => exact fun h => ih (h.step c)
  exact hrun calls ⟨nofun, rfl, .nil⟩

/-- The batches are the enqueued events, cut at the drains. -/
theorem flatten_batches (calls : List Call) :
    (batches calls).drained.flatten ++ (batches calls).since = enqueued calls := by
  have hrun : ∀ (calls : List Call) (b : Batches),
      (calls.foldl Batches.step b).drained.flatten ++ (calls.foldl Batches.step b).since =
        b.drained.flatten ++ b.since ++ enqueued calls := by
    intro calls
    induction calls with
    | nil => simp [enqueued]
    | cons c calls ih =>
      intro b
      rw [List.foldl_cons, ih]
      cases c <;> simp [Batches.step, enqueued]
  exact hrun calls ⟨[], []⟩

/-- Each drain returns the newest of the events enqueued since the one before it, in order; an
event is lost only when the queue was filled after it. Read at any later time, all drains
together have returned a subsequence of what was enqueued. -/
theorem drain_exact (grow : ℕ → ℕ) (calls : List Call) :
    let r := runCalls grow calls
    r.returned.Forall₂ (fun s evs =>
        contents r.queue.memory s = evs.drop (evs.length - eventBufferSize) ∧
        (s = none ↔ evs = []) ∧
        ∀ before ev after, evs = before ++ ev :: after → after.length < eventBufferSize →
          ev :: after <:+ contents r.queue.memory s) (batches calls).drained ∧
      (r.returned.map (contents r.queue.memory)).flatten.Sublist (enqueued calls) := by
  intro r
  have hreturned := (consistent_run grow calls).returned
  constructor
  · refine hreturned.imp fun s evs hs => ⟨hs.contents, hs.nil_iff, ?_⟩
    intro before ev after hsplit hfew
    rw [hs.contents]
    exact newest_split hsplit hfew
  · rw [← flatten_batches calls]
    exact (returned_sublist hreturned).trans (List.sublist_append_left _ _)

end ProtonDrive.EventQueue
