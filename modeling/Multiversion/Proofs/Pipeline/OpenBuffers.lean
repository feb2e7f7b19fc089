import Mathlib.Data.Finset.Card
import Multiversion.Pipeline.Coordinator
import Multiversion.Proofs.Pipeline.FailedFlushes

/-!
# The buffers that are open

All buffers of a coordinator count themselves on its monitor: when they are opened, by the coordinator or
past it, and when they are closed or dropped.  Nothing else that is done to a buffer counts it, whether it
succeeds or fails, and a buffer that is closed already is not counted again.

* `Monitor.buffers` — the counters of buffers; `Buffering.Counted` — what an operation leaves alone until
  the buffer closes;
* `BufferPark` — a coordinator with its buffers; `PipelineCall` — what is done with them;
* `BufferAccount` — what should be on the monitor, told by the calls alone.

Main statement: `BufferPark.outstanding_run` — the monitor agrees with the account along every list of calls.
-/

namespace Multiversion

/-- The counters of buffers, without the flushes held back. -/
def Monitor.buffers (m : Monitor) : Monitor := { m with rejections := 0 }

theorem Monitor.buffers_bufferClosed (m : Monitor) : m.bufferClosed.buffers = m.buffers.bufferClosed := by
  unfold bufferClosed
  cases houtstanding : m.outstanding <;> simp [buffers, houtstanding]

namespace Buffering

variable {ω : Type} {d : Delivery ω} {s : Buffering ω} {m : Monitor} {closed : Bool}

/-- Flushes that are looked after, held back and collected on the way to a new one keep a property. -/
theorem Steady.makeRoomWithin {P : Buffering ω → Prop} (h : Steady d P)
    (hheld : ∀ s, P s → P (heldBack d s)) (policy : Backpressure) (fuel : Nat) (hs : P s) :
    P (makeRoomWithin d policy fuel s).2 := by
  induction fuel generalizing s with
  | zero => exact hs
  | succ fuel ih =>
      unfold Buffering.makeRoomWithin
      split
      · exact hs
      · cases policy with
        | block => exact ih (h.completeOldest _ (hheld s hs))
        | reject => exact hheld s hs

/-- A buffer that is open or closed, and the counters of buffers. -/
structure Counted (m : Monitor) (closed : Bool) (s : Buffering ω) : Prop where
  monitor : s.monitor.buffers = m
  closed : s.buffer.closed = closed

theorem steady_counted : Steady d (Counted m closed) where
  completeOldest s hs := by
    unfold Buffering.completeOldest
    split
    · exact hs
    · exact ⟨hs.monitor, hs.closed⟩
  asked _ _ hs := ⟨hs.monitor, hs.closed⟩

theorem counted_handOver (hs : s.Counted m closed) : (handOver d s).2.Counted m closed := by
  unfold handOver
  split
  · exact ⟨hs.monitor, hs.closed⟩
  · split <;> exact ⟨hs.monitor, hs.closed⟩

theorem counted_sendPending (hs : s.Counted m closed) (policy : Backpressure) :
    (sendPending d policy s).2.Counted m closed := by
  have hroom : (makeRoom d policy (reap d s)).2.Counted m closed :=
    (steady_counted (d := d)).makeRoomWithin (fun _ hs => ⟨hs.monitor, hs.closed⟩) policy _
      (steady_counted.reap hs)
  unfold sendPending
  split
  · exact hs
  · split
    · rename_i hmade
      rwa [hmade] at hroom
    · rename_i hmade
      rw [hmade] at hroom
      exact counted_handOver hroom

theorem lasting_counted : Lasting d (Counted m closed) where
  queued _ _ hs := ⟨hs.monitor, hs.closed⟩
  sendPending _ policy hs := counted_sendPending hs policy

/-- **An operation before closing** counts nothing, whether it succeeds or fails. -/
theorem counted_perform (hs : s.Counted m closed) (c : BufferCall) :
    (perform d s c).2.Counted m closed := by
  cases c with
  | add row => exact lasting_counted.add hs row
  | addAll rows => exact lasting_counted.addAll hs rows
  | flush => exact lasting_counted.flush hs
  | takeCompleted =>
      have hreap := steady_counted.reap (d := d) hs
      exact ⟨hreap.monitor, hreap.closed⟩

/-- **Closing an open buffer** counts it, whatever becomes of its rows. -/
theorem counted_close (hs : s.Counted m false) : (close d s).2.Counted m.bufferClosed true := by
  have hclosing : s.closing.Counted m true := ⟨hs.monitor, rfl⟩
  have hlast : (sendLast d s.closing).Counted m true := by
    have hsent := counted_sendPending (d := d) hclosing .block
    unfold sendLast
    split
    · rename_i hfailed
      rw [hfailed] at hsent
      exact ⟨hsent.monitor, hsent.closed⟩
    · rename_i hok
      rwa [hok] at hsent
  have hleft := steady_counted.completeAll (d := d) hlast
  rw [close_of_open d hs.closed]
  exact ⟨by rw [← hleft.monitor, ← Monitor.buffers_bufferClosed]; rfl, hleft.closed⟩

end Buffering

variable {τ : Type}

/-- A buffer that was opened, with the hook and the writer that it works with. -/
structure OpenedBuffer (τ : Type) where
  buffer : CallBuffer
  delivery : Delivery (Workshop τ)

/-- A coordinator with all buffers that were opened on its monitor, in the order in which they were. -/
structure BufferPark (τ : Type) where
  coordinator : Coordinator τ
  buffers : List (OpenedBuffer τ) := []

/-- What is done with a coordinator and with buffers, which are named by their number. -/
inductive PipelineCall (τ : Type) where
  -- A buffer of the coordinator, on either route; and one made on its monitor, for any hook and writer.
  | openBuffer (destination : String) (txn : View) (route : Route) (limits : BufferLimits) (hook : Hook)
  | makeBuffer (destination : String) (txn : View) (limits : BufferLimits) (policy : Backpressure)
      (delivery : Delivery (Workshop τ))
  | perform (n : Nat) (c : BufferCall)
  | close (n : Nat)
  | drop (n : Nat)
  | shutdown
  | resize (limit : Nat)
  | rest
  -- Workers, and whatever else happens to the world in between.
  | disturb (change : Workshop τ → Workshop τ)

/-- What should be on the monitor: the number of buffers that were opened, the numbers of those that were
closed or dropped since, and whether the coordinator was shut down. -/
structure BufferAccount where
  opened : Nat := 0
  ended : Finset Nat := ∅
  shut : Bool := false

namespace BufferAccount

/-- Enters the end of a buffer. -/
def enterEnd (a : BufferAccount) (n : Nat) : BufferAccount :=
  if n < a.opened then { a with ended := insert n a.ended } else a

/-- The account after a call. -/
def enter (a : BufferAccount) : PipelineCall τ → BufferAccount
  | .openBuffer .. => if a.shut then a else { a with opened := a.opened + 1 }
  | .makeBuffer .. => { a with opened := a.opened + 1 }
  | .close n => a.enterEnd n
  | .drop n => a.enterEnd n
  | .shutdown => { a with shut := true }
  | .perform .. | .resize _ | .rest | .disturb _ => a

/-- The account of some calls. -/
def of (calls : List (PipelineCall τ)) : BufferAccount := calls.foldl enter {}

/-- The numbers of the buffers that were opened and neither closed nor dropped. -/
def stillOpen (a : BufferAccount) : Finset Nat := Finset.range a.opened \ a.ended

end BufferAccount

namespace BufferPark

/-- Adds a buffer that counts itself on the monitor. -/
def addBuffer (x : BufferPark τ) (opening : CallBuffer × Monitor) (delivery : Delivery (Workshop τ)) :
    BufferPark τ where
  coordinator := { x.coordinator with monitor := opening.2 }
  buffers := x.buffers ++ [⟨opening.1, delivery⟩]

/-- A buffer with the monitor and the workshop of the coordinator. -/
def working (x : BufferPark τ) (b : OpenedBuffer τ) : Buffering (Workshop τ) :=
  ⟨b.buffer, x.coordinator.monitor, x.coordinator.workshop⟩

/-- Puts back what a buffer has worked with. -/
def putBack (x : BufferPark τ) (n : Nat) (delivery : Delivery (Workshop τ)) (s : Buffering (Workshop τ)) :
    BufferPark τ where
  coordinator := { x.coordinator with monitor := s.monitor, workshop := s.world }
  buffers := x.buffers.set n ⟨s.buffer, delivery⟩

/-- Lets a buffer work with the workshop and the monitor of the coordinator. -/
def onBuffer (x : BufferPark τ) (n : Nat)
    (operate : Delivery (Workshop τ) → Buffering (Workshop τ) → Buffering (Workshop τ)) : BufferPark τ :=
  match x.buffers[n]? with
  | none => x
  | some b => x.putBack n b.delivery (operate b.delivery (x.working b))

/-- The hook and the writer of a buffer that a coordinator has opened. -/
def deliveryOf (t : Transport τ) (ch : Channel) : Delivery (Workshop τ) :=
  Workshop.delivery t ch.route ch.hook fun _ world => world

/-- A call. -/
def step (t : Transport τ) (x : BufferPark τ) : PipelineCall τ → BufferPark τ
  | .openBuffer destination txn route limits hook =>
      match x.coordinator.openBuffer destination txn route limits hook with
      | (.ok ch, c) => { coordinator := c, buffers := x.buffers ++ [⟨ch.buffer, deliveryOf t ch⟩] }
      | (.error _, c) => { x with coordinator := c }
  | .makeBuffer destination txn limits policy delivery =>
      x.addBuffer (CallBuffer.opening destination txn limits policy x.coordinator.monitor) delivery
  | .perform n c => x.onBuffer n fun d s => (Buffering.perform d s c).2
  | .close n => x.onBuffer n fun d s => (Buffering.close d s).2
  | .drop n => x.onBuffer n Buffering.drop
  | .shutdown => { x with coordinator := x.coordinator.shutdown t }
  | .resize limit => { x with coordinator := x.coordinator.resize limit }
  | .rest => { x with coordinator := x.coordinator.rest t }
  | .disturb change =>
      { x with coordinator := { x.coordinator with workshop := change x.coordinator.workshop } }

/-- The park after some calls, from a new coordinator. -/
def run (t : Transport τ) (config : PipelineConfig) (world : τ) (calls : List (PipelineCall τ)) :
    BufferPark τ :=
  calls.foldl (step t) { coordinator := .ofConfig config world }

/-- A buffer of a coordinator works as the coordinator lets it work. -/
theorem onBuffer_channel {x : BufferPark τ} {t : Transport τ} {ch : Channel} {n : Nat}
    (hch : x.buffers[n]? = some ⟨ch.buffer, deliveryOf t ch⟩) {α : Type}
    (operate : Delivery (Workshop τ) → Buffering (Workshop τ) → α × Buffering (Workshop τ)) :
    x.onBuffer n (fun d s => (operate d s).2) =
      { coordinator := (x.coordinator.onBuffer t ch operate).2.2
        buffers := x.buffers.set n
          ⟨(x.coordinator.onBuffer t ch operate).2.1.buffer, deliveryOf t ch⟩ } := by
  rw [onBuffer, hch]
  rfl

/-- The monitor, the coordinator and the buffers agree with the account. -/
structure Accounted (a : BufferAccount) (x : BufferPark τ) : Prop where
  shut : x.coordinator.closed = a.shut
  numbered : x.buffers.length = a.opened
  ended : ∀ n ∈ a.ended, n < a.opened
  closed_iff : ∀ n b, x.buffers[n]? = some b → (b.buffer.closed = true ↔ n ∈ a.ended)
  opened : x.coordinator.monitor.opened = a.opened
  closed : x.coordinator.monitor.closed = a.ended.card
  outstanding : x.coordinator.monitor.outstanding + a.ended.card = a.opened

theorem step_openBuffer (t : Transport τ) (x : BufferPark τ) (destination : String) (txn : View)
    (route : Route) (limits : BufferLimits) (hook : Hook) :
    ∃ delivery, x.step t (.openBuffer destination txn route limits hook) =
      if x.coordinator.closed then x
      else
        x.addBuffer (CallBuffer.opening destination txn limits x.coordinator.config.backpressure
          x.coordinator.monitor) delivery := by
  refine ⟨Workshop.delivery t route hook fun _ world => world, ?_⟩
  by_cases hclosed : x.coordinator.closed
  · simp only [step, Coordinator.openBuffer, if_pos hclosed]
  · simp only [step, Coordinator.openBuffer, if_neg hclosed]
    rfl

theorem counted_working (x : BufferPark τ) (b : OpenedBuffer τ) :
    (x.working b).Counted x.coordinator.monitor.buffers b.buffer.closed := ⟨rfl, rfl⟩

namespace Accounted

variable {a : BufferAccount} {x : BufferPark τ}

theorem start (config : PipelineConfig) (world : τ) :
    Accounted {} { coordinator := Coordinator.ofConfig config world } where
  shut := rfl
  numbered := rfl
  ended := by simp
  closed_iff n b hb := by simp at hb
  opened := rfl
  closed := rfl
  outstanding := rfl

/-- A buffer that is opened takes the next number and is counted. -/
theorem addBuffer (h : Accounted a x) (destination : String) (txn : View) (limits : BufferLimits)
    (policy : Backpressure) (delivery : Delivery (Workshop τ)) :
    Accounted { a with opened := a.opened + 1 }
      (x.addBuffer (CallBuffer.opening destination txn limits policy x.coordinator.monitor) delivery) where
  shut := h.shut
  numbered := by simp [BufferPark.addBuffer, h.numbered]
  ended n hn := Nat.lt_succ_of_lt (h.ended n hn)
  closed_iff n b hb := by
    rw [BufferPark.addBuffer, List.getElem?_append] at hb
    split at hb
    · exact h.closed_iff n b hb
    · rename_i hnew
      obtain rfl := List.mem_singleton.1 (List.mem_of_getElem? hb)
      have hfresh : n ∉ a.ended := fun hn => hnew (h.numbered ▸ h.ended n hn)
      exact iff_of_false Bool.false_ne_true hfresh
  opened := congrArg (· + 1) h.opened
  closed := h.closed
  outstanding := by
    have houtstanding := h.outstanding
    simp only [BufferPark.addBuffer, CallBuffer.opening, Monitor.bufferOpened]
    omega

/-- A buffer becomes another one, which is closed if its number is on the account. -/
theorem closed_iff_set (h : Accounted a x) {n : Nat} {next : OpenedBuffer τ} {ended : Finset Nat}
    (hnext : next.buffer.closed = true ↔ n ∈ ended) (hothers : ∀ k, k ≠ n → (k ∈ ended ↔ k ∈ a.ended))
    {k : Nat} {b : OpenedBuffer τ} (hb : (x.buffers.set n next)[k]? = some b) :
    b.buffer.closed = true ↔ k ∈ ended := by
  by_cases hk : k = n
  · subst hk
    have hlt := (List.getElem?_eq_some_iff.1 hb).1
    rw [List.getElem?_set_self (by simpa using hlt)] at hb
    rwa [← Option.some.inj hb]
  · rw [List.getElem?_set_ne (Ne.symm hk)] at hb
    rw [hothers k hk]
    exact h.closed_iff k b hb

/-- A buffer has worked, and is as open or closed as before, and nothing was counted. -/
theorem putBack (h : Accounted a x) {n : Nat} {b : OpenedBuffer τ} (hb : x.buffers[n]? = some b)
    {s : Buffering (Workshop τ)} (hs : s.Counted x.coordinator.monitor.buffers b.buffer.closed) :
    Accounted a (x.putBack n b.delivery s) where
  shut := h.shut
  numbered := (List.length_set ..).trans h.numbered
  ended := h.ended
  closed_iff k b' hb' := by
    have hnext : s.buffer.closed = true ↔ n ∈ a.ended := hs.closed ▸ h.closed_iff n b hb
    exact h.closed_iff_set hnext (fun _ _ => .rfl) hb'
  opened := (congrArg Monitor.opened hs.monitor).trans h.opened
  closed := (congrArg Monitor.closed hs.monitor).trans h.closed
  outstanding := (congrArg (·.outstanding + _) hs.monitor).trans h.outstanding

/-- A buffer that was open has been closed and counted. -/
theorem putBack_closed (h : Accounted a x) {n : Nat} {b : OpenedBuffer τ} (hb : x.buffers[n]? = some b)
    (hopen : b.buffer.closed = false) {s : Buffering (Workshop τ)}
    (hs : s.Counted x.coordinator.monitor.buffers.bufferClosed true) :
    Accounted { a with ended := insert n a.ended } (x.putBack n b.delivery s) := by
  have hn : n < a.opened := h.numbered ▸ (List.getElem?_eq_some_iff.1 hb).1
  have hfresh : n ∉ a.ended := fun hn => by simpa [hopen] using (h.closed_iff n b hb).2 hn
  have hcard : (insert n a.ended).card = a.ended.card + 1 := Finset.card_insert_of_notMem hfresh
  -- An open buffer is outstanding, so the monitor has one to take off.
  have hwithin : (insert n a.ended).card ≤ a.opened := by
    have hsub : insert n a.ended ⊆ Finset.range a.opened := by
      intro k hk
      rcases Finset.mem_insert.1 hk with rfl | hk
      · exact Finset.mem_range.2 hn
      · exact Finset.mem_range.2 (h.ended k hk)
    simpa using Finset.card_le_card hsub
  have houtstanding := h.outstanding
  obtain ⟨left, hleft⟩ : ∃ left, x.coordinator.monitor.outstanding = left + 1 :=
    Nat.exists_eq_add_one.2 (by omega)
  have hmonitor := hs.monitor
  rw [← Monitor.buffers_bufferClosed, Monitor.bufferClosed, hleft] at hmonitor
  refine ⟨h.shut, (List.length_set ..).trans h.numbered, fun k hk => ?_, fun k b' hb' => ?_, ?_, ?_, ?_⟩
  · rcases Finset.mem_insert.1 hk with rfl | hk
    · exact hn
    · exact h.ended k hk
  · refine h.closed_iff_set (iff_of_true hs.closed (Finset.mem_insert_self n _)) (fun k hk => ?_) hb'
    rw [Finset.mem_insert, or_iff_right hk]
  · exact (congrArg Monitor.opened hmonitor).trans h.opened
  · rw [hcard, ← h.closed]
    exact congrArg Monitor.closed hmonitor
  · rw [hcard]
    have hnext : s.monitor.outstanding = left := congrArg Monitor.outstanding hmonitor
    show s.monitor.outstanding + _ = a.opened
    omega

theorem perform (h : Accounted a x) (n : Nat) (c : BufferCall) :
    Accounted a (x.onBuffer n fun d s => (Buffering.perform d s c).2) := by
  unfold onBuffer
  split
  · exact h
  · rename_i b hb
    exact h.putBack hb (Buffering.counted_perform (counted_working x b) c)

/-- **The end of a buffer** is counted the first time. -/
theorem endBuffer (h : Accounted a x) (n : Nat) :
    Accounted (a.enterEnd n) (x.onBuffer n fun d s => (Buffering.close d s).2) := by
  rw [onBuffer, BufferAccount.enterEnd]
  cases hb : x.buffers[n]? with
  | none =>
      rw [if_neg (h.numbered ▸ Nat.not_lt.2 (List.getElem?_eq_none_iff.1 hb))]
      exact h
  | some b =>
      rw [if_pos (h.numbered ▸ (List.getElem?_eq_some_iff.1 hb).1)]
      dsimp only
      cases hclosed : b.buffer.closed with
      | true =>
          have hsame : Buffering.close b.delivery (x.working b) = ([], x.working b) := if_pos hclosed
          rw [hsame, Finset.insert_eq_of_mem ((h.closed_iff n b hb).1 hclosed)]
          exact h.putBack hb (counted_working x b)
      | false =>
          exact h.putBack_closed hb hclosed (Buffering.counted_close (hclosed ▸ counted_working x b))

/-- **A call** keeps the account. -/
theorem step (h : Accounted a x) (t : Transport τ) (c : PipelineCall τ) :
    Accounted (a.enter c) (x.step t c) := by
  cases c with
  | openBuffer destination txn route limits hook =>
      obtain ⟨delivery, hstep⟩ := step_openBuffer t x destination txn route limits hook
      rw [hstep, h.shut, BufferAccount.enter]
      split
      · exact h
      · exact h.addBuffer ..
  | makeBuffer => exact h.addBuffer ..
  | perform n c => exact h.perform n c
  | close n => exact h.endBuffer n
  | drop n => exact h.endBuffer n
  | shutdown =>
      rw [BufferPark.step, Coordinator.shutdown]
      split
      · rename_i hclosed
        exact { h with shut := hclosed }
      · exact { h with shut := rfl }
  | resize limit => exact { h with }
  | rest => exact { h with }
  | disturb change => exact { h with }

end Accounted

theorem accounted_run (t : Transport τ) (config : PipelineConfig) (world : τ)
    (calls : List (PipelineCall τ)) : Accounted (.of calls) (run t config world calls) := by
  induction calls using List.reverseRecOn with
  | nil => exact .start config world
  | append_singleton calls c ih =>
      rw [BufferAccount.of, run, List.foldl_append, List.foldl_append]
      exact ih.step t c

/-- **The monitor counts the open buffers exactly.**  Buffers are opened by a coordinator, with any limits and
hook, on either route, or made on its monitor for any hook and writer; they are used, closed and dropped, in
any order and repeatedly, and the coordinator is resized and shut down at any time; transport, hooks and
writers may fail at any call.  Then

* the buffers outstanding are those that were opened and neither closed nor dropped, which are as many as were
  opened less those that were closed;
* each buffer that was closed or dropped is counted as closed, once;
* a coordinator that was shut down refuses a buffer, and stays as it is. -/
theorem outstanding_run (t : Transport τ) (config : PipelineConfig) (world : τ)
    (calls : List (PipelineCall τ)) :
    let x := run t config world calls
    let account := BufferAccount.of calls
    let monitor := x.coordinator.monitor
    monitor.outstanding = account.stillOpen.card ∧
      monitor.outstanding = monitor.opened - monitor.closed ∧ monitor.closed ≤ monitor.opened ∧
      monitor.opened = account.opened ∧ monitor.closed = account.ended.card ∧
      (∀ n b, x.buffers[n]? = some b → (b.buffer.closed = true ↔ n ∈ account.ended)) ∧
      (account.shut = true → ∀ destination txn route limits hook,
        x.coordinator.openBuffer destination txn route limits hook = (.error .shutdown, x.coordinator)) := by
  intro x account monitor
  have h : Accounted account x := accounted_run t config world calls
  have hopened : monitor.opened = account.opened := h.opened
  have hclosed : monitor.closed = account.ended.card := h.closed
  have houtstanding : monitor.outstanding + account.ended.card = account.opened := h.outstanding
  have hended : account.ended ⊆ Finset.range account.opened := fun n hn => Finset.mem_range.2 (h.ended n hn)
  refine ⟨?_, by omega, by omega, hopened, hclosed, h.closed_iff, fun hshut _ _ _ _ _ => ?_⟩
  · rw [BufferAccount.stillOpen, Finset.card_sdiff_of_subset hended, Finset.card_range]
    omega
  · rw [Coordinator.openBuffer, if_pos (h.shut.trans hshut)]

end BufferPark

end Multiversion
