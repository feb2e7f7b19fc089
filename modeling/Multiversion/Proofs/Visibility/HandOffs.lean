import Multiversion.Proofs.Visibility.Memory

/-!
# Hand-offs of readers that stay open

A reader's view may be kept and used again, long after the records have moved on.  What it remembers of
a writer can be out of date by then, but not what it hands over: only final fates call for a hand-off,
and they stay true.

* `Fallen` — a committed path that ends at a transaction which was rolled back;
* `HandOff.Due` — what the records must say for a hand-off to be right at this and any later time;
* `HandOff.Lasting` — kinds of hand-offs about which one argument serves;
* `Visibility.Reliable` — a view that hands over only what is due;
* `CellStore.Tidied` — cells to which hand-offs have been applied.

Main statements: examining a cell keeps a view reliable (`Visibility.reliable_fate`), whether it was
loaded just now or long ago; what reads leave behind is due (`Read.due_get`, `Read.due_scan`).
-/

namespace Multiversion

/-- Work that is gone for everyone: everything above the transaction has committed, up to one that was
rolled back. -/
inductive Fallen (d : Directory) : TxnId → Prop
  | rolledBack {id : TxnId} {v : View} (hfind : d.find? id = some v) (hphase : v.phase = .rolledBack) :
      Fallen d id
  | step {id parent : TxnId} {v : View} (hfind : d.find? id = some v) (hphase : v.phase = .committed)
      (hparent : v.parent = some parent) (h : Fallen d parent) : Fallen d id

namespace Fallen

variable {d d' : Directory} {id : TxnId}

theorem doomed (h : Fallen d id) : Doomed d id := by
  induction h with
  | @rolledBack id v hfind hphase => exact ⟨id, v, .refl id, hfind, hphase⟩
  | step hfind _ hparent _ ih =>
      obtain ⟨a, w, hascends, hw⟩ := ih
      exact ⟨a, w, .step hfind hparent hascends, hw⟩

theorem later (h : Fallen d id) (hlater : d.Later d') : Fallen d' id := by
  induction h with
  | rolledBack hfind hphase =>
      obtain ⟨v', hfind', hevolves⟩ := hlater _ _ hfind
      exact .rolledBack hfind' (hevolves.rolledBack hphase)
  | step hfind hphase hparent _ ih =>
      obtain ⟨v', hfind', hevolves⟩ := hlater _ _ hfind
      exact .step hfind' (hevolves.committed hphase) (hevolves.parent.trans hparent) ih

/-- Work in progress is not gone. -/
theorem not_active (h : Fallen d id) {v : View} (hv : d.find? id = some v) : v.phase ≠ .active := by
  intro hactive
  cases h with
  | rolledBack hfind hphase =>
      cases hv.symm.trans hfind
      simp [hactive] at hphase
  | step hfind hphase =>
      cases hv.symm.trans hfind
      simp [hactive] at hphase

end Fallen

namespace Lineage

/-- A walk that finds work rolled back has passed committed transactions only. -/
theorem fallen_of_walk {d : Directory} (hd : d.Sound) {l : Lineage} {writer : TxnId} {room : Nat}
    {below : Option Timestamp} {v : View} (hv : d.find? v.id = some v)
    (h : l.walk d writer room below v = .ok .rolledBack) : Fallen d v.id := by
  fun_induction walk l d writer room below v with
  | case2 room below v hgo hphase => exact .rolledBack hv hphase
  | case9 below v hgo hphase commit parent hparent hcommit hnone room u hget ih =>
      have hfind := Directory.get_eq_ok_iff.1 hget
      have hkeyed : u.id = parent := hd.keyed hfind
      exact .step hv hphase hparent (hkeyed ▸ ih (hkeyed ▸ hfind) h)
  | _ => cases h

theorem fallen_of_resolveWriter {d : Directory} (hd : d.Sound) {l : Lineage} {writer : TxnId}
    (h : l.resolveWriter d writer = .ok .rolledBack) : Fallen d writer := by
  unfold resolveWriter at h
  split at h
  · cases h
  · split at h
    · contradiction
    · rename_i v hget
      have hfind := Directory.get_eq_ok_iff.1 hget
      have hkeyed : v.id = writer := hd.keyed hfind
      rw [← hkeyed] at hfind ⊢
      exact fallen_of_walk hd hfind h

end Lineage

namespace HandOff

/-- What the records must say for a hand-off to be right. -/
def Due (d : Directory) : HandOff → Prop
  | .rolledBack _ writer => Fallen d writer
  | .committed _ writer ts =>
      ∃ v us, d.find? writer = some v ∧ Path d v us ∧ rootCommit v us = some ts

variable {d d' : Directory} {h : HandOff}

theorem Due.justified (hdue : h.Due d) : h.Justified d := by
  cases h with
  | rolledBack key writer => exact hdue.doomed
  | committed key writer ts => exact hdue

/-- What is due stays due. -/
theorem Due.later (hdue : h.Due d) (hlater : d.Later d') : h.Due d' := by
  cases h with
  | rolledBack key writer => exact Fallen.later hdue hlater
  | committed key writer ts => exact Justified.later (h := .committed key writer ts) hdue hlater

/-- A kind of hand-off that readers leave behind, and that stays right as the records move on. -/
structure Lasting (P : Directory → HandOff → Prop) : Prop where
  due : ∀ {d : Directory} {h : HandOff}, h.Due d → P d h
  later : ∀ {d d' : Directory} {h : HandOff}, P d h → d.Later d' → P d' h

theorem lasting_due : Lasting Due := ⟨id, Due.later⟩

theorem lasting_justified : Lasting Justified := ⟨Due.justified, Justified.later⟩

end HandOff

namespace Visibility

variable {d d' : Directory}

/-- The hand-off that a fate calls for is due. -/
theorem due_handOffFor (hd : d.Sound) {l : Lineage} {writer : TxnId} {f : Fate}
    (h : l.resolveWriter d writer = .ok f) (key : Bytes) :
    ∀ handOff ∈ (handOffFor key writer f).toList, handOff.Due d := by
  intro handOff hmem
  have hjustified := justified_handOffFor hd h key handOff hmem
  cases f with
  | rolledBack =>
      simp only [handOffFor, Option.toList_some, List.mem_singleton] at hmem
      subst hmem
      exact Lineage.fallen_of_resolveWriter hd h
  | committed commit via =>
      simp only [handOffFor, Option.toList_some, List.mem_singleton] at hmem
      subst hmem
      exact hjustified
  | own => simp [handOffFor] at hmem
  | committedInto => simp [handOffFor] at hmem
  | active => simp [handOffFor] at hmem

/-- A view that hands over only what is due, out of its memory too. -/
structure Reliable (d : Directory) (v : Visibility) : Prop where
  -- A remembered fate calls only for what is due.
  memory : ∀ {writer : TxnId} {f : Fate}, v.memory[writer]? = some f →
    ∀ key, ∀ h ∈ (handOffFor key writer f).toList, h.Due d
  handOffs : ∀ h ∈ v.outbox.handOffs, h.Due d

theorem Reliable.later {v : Visibility} (hv : v.Reliable d) (hlater : d.Later d') :
    v.Reliable d' where
  memory hmemory key h hh := (hv.memory hmemory key h hh).later hlater
  handOffs h hh := (hv.handOffs h hh).later hlater

theorem Reliable.clearOutbox {v : Visibility} (hv : v.Reliable d) : v.clearOutbox.Reliable d where
  memory := hv.memory
  handOffs h hh := by simp [Visibility.clearOutbox] at hh

theorem reliable_load {reader : View} {v : Visibility} (h : load d reader = .ok v) : v.Reliable d := by
  unfold load at h
  split at h
  · contradiction
  · cases h
    exact ⟨by simp, by simp⟩

theorem reliable_learn (hd : d.Sound) {v : Visibility} (hv : v.Reliable d) (writer : TxnId) :
    (v.learn d writer).2.Reliable d ∧ ∀ f, (v.learn d writer).1 = .ok f →
      ∀ key, ∀ h ∈ (handOffFor key writer f).toList, h.Due d := by
  unfold learn
  cases hmemory : v.memory[writer]? with
  | some f =>
      refine ⟨hv, fun g hg => ?_⟩
      cases hg
      exact hv.memory hmemory
  | none =>
      cases hresolve : v.lineage.resolveWriter d writer with
      | error e => exact ⟨hv, fun g hg => by cases hg⟩
      | ok f =>
          refine ⟨⟨fun {other g} hother => ?_, hv.handOffs⟩, fun g hg => ?_⟩
          · rw [Std.ExtTreeMap.getElem?_insert] at hother
            split at hother
            · rename_i hsame
              cases hother
              rw [← Std.LawfulEqCmp.eq_of_compare hsame]
              exact due_handOffFor hd hresolve
            · exact hv.memory hother
          · cases hg
            exact due_handOffFor hd hresolve

/-- **Examining a cell** keeps a view reliable, however old the view is. -/
theorem reliable_fate (hd : d.Sound) {v : Visibility} (hv : v.Reliable d) (key : Bytes) (cell : Cell) :
    (v.fate d key cell).2.Reliable d := by
  unfold fate
  cases v.cachedCommit cell with
  | some commit => exact hv
  | none =>
      obtain ⟨hlearnt, hdue⟩ := reliable_learn hd hv cell.writer
      cases hlearn : v.learn d cell.writer with
      | mk answer v' =>
          rw [hlearn] at hlearnt hdue
          cases answer with
          | error e => exact hlearnt
          | ok f =>
              refine ⟨hlearnt.memory, fun h hh => ?_⟩
              rcases List.mem_append.1 hh with hold | hnew
              · exact hlearnt.handOffs h hold
              · exact hdue f rfl key h hnew

theorem reliable_filterRow (hd : d.Sound) {v : Visibility} (hv : v.Reliable d) (key : Bytes)
    (cells : List Cell) : (v.filterRow d key cells).2.Reliable d := by
  induction cells generalizing v with
  | nil => exact hv
  | cons cell rest ih =>
      have hfirst := reliable_fate hd hv key cell
      simp only [filterRow, isVisible]
      cases hfate : v.fate d key cell with
      | mk answer v' =>
          rw [hfate] at hfirst
          cases answer with
          | error e => exact hfirst
          | ok f =>
              dsimp only
              cases f.isVisibleTo v'.reader with
              | true => exact hfirst
              | false => exact ih hfirst

end Visibility

namespace Read

variable {d : Directory}

theorem reliable_rows (hd : d.Sound) {v : Visibility} (hv : v.Reliable d)
    (found : List (Bytes × List Cell)) : (rows d v found).2.Reliable d := by
  induction found generalizing v with
  | nil => exact hv
  | cons row rest ih =>
      obtain ⟨key, versions⟩ := row
      have hfirst := Visibility.reliable_filterRow hd hv key versions
      simp only [rows]
      cases hfiltered : v.filterRow d key versions with
      | mk answer v' =>
          rw [hfiltered] at hfirst
          cases answer with
          | error e => exact hfirst
          | ok cell =>
              have hrest := ih hfirst
              dsimp only
              cases hrows : rows d v' rest with
              | mk answer v'' =>
                  rw [hrows] at hrest
                  cases answer with
                  | error e => exact hrest
                  | ok pairs => exact hrest

theorem due_get (hd : d.Sound) (reader : View) (cells : CellStore) (key : Bytes) :
    ∀ h ∈ (get d reader cells key).2.handOffs, h.Due d := by
  unfold get
  split
  · simp
  · rename_i v hview
    have hreliable := Visibility.reliable_filterRow hd (Visibility.reliable_load hview) key
      (cells.get key (Selection.widen {}))
    split
    · rename_i hfiltered
      rw [hfiltered] at hreliable
      exact hreliable.handOffs
    · rename_i hfiltered
      rw [hfiltered] at hreliable
      exact hreliable.handOffs

theorem due_scan (hd : d.Sound) (reader : View) (cells : CellStore) (range : KeyRange) :
    ∀ h ∈ (scan d reader cells range).2.handOffs, h.Due d := by
  unfold scan
  split
  · simp
  · rename_i v hview
    split
    · simp
    · rename_i found hfound
      have hreliable := reliable_rows hd (Visibility.reliable_load hview) found
      split
      · rename_i hrows
        rw [hrows] at hreliable
        exact hreliable.handOffs
      · rename_i hrows
        rw [hrows] at hreliable
        exact hreliable.handOffs

end Read

/-- Cells to which hand-offs of some kind have been applied. -/
inductive CellStore.Tidied (P : HandOff → Prop) : CellStore → CellStore → Prop
  | refl (cells : CellStore) : Tidied P cells cells
  | apply {cells cells' : CellStore} {h : HandOff} (hkind : P h)
      (hrest : Tidied P (h.applyTo cells).2 cells') : Tidied P cells cells'

/-- The hand-offs that are queued. -/
def Sweeper.pending : Sweeper → List HandOff
  | .queued queue _ _ => queue
  | _ => []

namespace Sweeper

variable {P : HandOff → Prop} {s : Sweeper}

theorem tidied_applyAll {queue : List HandOff} (hqueue : ∀ h ∈ queue, P h) (cells : CellStore) :
    cells.Tidied P (applyAll cells queue).2 := by
  induction queue generalizing cells with
  | nil => exact .refl cells
  | cons h rest ih =>
      exact .apply (hqueue h List.mem_cons_self)
        (ih (fun x hx => hqueue x (List.mem_cons_of_mem _ hx)) _)

theorem tidied_drain (hs : ∀ h ∈ s.pending, P h) (cells : CellStore) :
    cells.Tidied P (s.drain cells).2 ∧ (s.drain cells).1.pending = [] := by
  cases s with
  | ignoring => exact ⟨.refl cells, rfl⟩
  | prompt => exact ⟨.refl cells, rfl⟩
  | queued queue accepting applied => exact ⟨tidied_applyAll hs cells, rfl⟩

theorem tidied_receiveAll (hs : ∀ h ∈ s.pending, P h) {handOffs : List HandOff}
    (hnew : ∀ h ∈ handOffs, P h) (cells : CellStore) :
    cells.Tidied P (s.receiveAll cells handOffs).2 ∧
      ∀ h ∈ (s.receiveAll cells handOffs).1.pending, P h := by
  induction handOffs generalizing s cells with
  | nil => exact ⟨.refl cells, hs⟩
  | cons h rest ih =>
      have hfirst := hnew h List.mem_cons_self
      have hrest : ∀ x ∈ rest, P x := fun x hx => hnew x (List.mem_cons_of_mem _ hx)
      cases s with
      | ignoring => exact ih hs hrest cells
      | prompt =>
          obtain ⟨htidied, hpending⟩ := ih hs hrest (h.applyTo cells).2
          exact ⟨.apply hfirst htidied, hpending⟩
      | queued queue accepting applied =>
          cases accepting with
          | false => exact ih hs hrest cells
          | true =>
              have hqueue : ∀ x ∈ (Sweeper.queued (queue ++ [h]) true applied).pending, P x := by
                intro x hx
                rcases List.mem_append.1 hx with hold | hx
                · exact hs x hold
                · rw [List.mem_singleton.1 hx]
                  exact hfirst
              exact ih hqueue hrest cells

end Sweeper

end Multiversion
