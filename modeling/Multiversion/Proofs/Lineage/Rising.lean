import Multiversion.Proofs.Lineage.Evolution
import Multiversion.Proofs.Lineage.Loading

/-!
# How far up work has committed

* `CommittedUpTo` — everything from a transaction up to an ancestor has committed;
* `CommittedAt` — everything up to the root has, and the root at this time;
* `CommittedInto` — everything up to directly below an ancestor has, so the work is now the ancestor's.

Main statements, for transactions with a path of permitted length: the lineage holds the transaction with
its ancestors (`Lineage.contains_iff_ascends`), every walk comes to an end (`Lineage.exists_walk`), and it
ends at an active element of the lineage exactly if the work was committed into it
(`Lineage.committedUpTo_of_resolveWriter`, `Lineage.resolveWriter_of_committedInto`).
-/

namespace Multiversion

/-- Everything from a transaction up to `top` has committed. -/
inductive CommittedUpTo (d : Directory) : TxnId → View → Prop
  | self {id : TxnId} {v : View} (hfind : d.find? id = some v) (hphase : v.phase = .committed) :
      CommittedUpTo d id v
  | step {id parent : TxnId} {v top : View} (hfind : d.find? id = some v)
      (hphase : v.phase = .committed) (hparent : v.parent = some parent)
      (h : CommittedUpTo d parent top) : CommittedUpTo d id top

/-- Everything from a transaction up to its root has committed, and the root at the given time. -/
def CommittedAt (d : Directory) (id : TxnId) (ts : Timestamp) : Prop :=
  ∃ v us, d.find? id = some v ∧ Path d v us ∧ rootCommit v us = some ts

namespace CommittedAt

variable {d d' : Directory} {id : TxnId} {ts : Timestamp}

theorem later (h : CommittedAt d id ts) (hlater : d.Later d') : CommittedAt d' id ts := by
  obtain ⟨v, us, hfind, hpath, hroot⟩ := h
  obtain ⟨v', hfind', hevolves⟩ := hlater _ _ hfind
  obtain ⟨us', hpath', -, hroot'⟩ := hlater.path hpath hevolves
  exact ⟨v', us', hfind', hpath', hroot' ts hroot⟩

/-- A transaction has one root, which committed once. -/
theorem unique {ts' : Timestamp} (h : CommittedAt d id ts) (h' : CommittedAt d id ts') : ts = ts' := by
  obtain ⟨v, us, hfind, hpath, hroot⟩ := h
  obtain ⟨v', us', hfind', hpath', hroot'⟩ := h'
  cases hfind.symm.trans hfind'
  cases hpath.unique hpath'
  exact Option.some.inj (hroot.symm.trans hroot')

/-- Whatever stands above has committed. -/
theorem committed_of_ascends (hd : d.Sound) (h : CommittedAt d id ts) {a : TxnId} {w : View}
    (ha : Ascends d id a) (hw : d.find? a = some w) : w.phase = .committed := by
  obtain ⟨v, us, hfind, hpath, hroot⟩ := h
  have hkeyed : v.id = id := hd.keyed hfind
  subst hkeyed
  obtain ⟨hcommitted, hancestors⟩ := committed_of_rootCommit hroot
  rcases hpath.mem_of_ascends hd hfind ha with rfl | ⟨u, hu, rfl⟩
  · cases hfind.symm.trans hw
    exact hcommitted
  · cases (hpath.ascends hd hfind u hu).2.symm.trans hw
    exact hancestors _ hu

/-- The timestamp is that of the root. -/
theorem exists_root (h : CommittedAt d id ts) :
    ∃ top, CommittedUpTo d id top ∧ top.parent = none ∧ top.commit = some ts := by
  obtain ⟨v, us, hfind, hpath, hroot⟩ := h
  induction hpath generalizing id with
  | @root v hparent =>
      simp only [rootCommit, Option.ite_none_right_eq_some] at hroot
      exact ⟨v, .self hfind hroot.1, hparent, hroot.2⟩
  | child hparent hfind' _ ih =>
      simp only [rootCommit, Option.ite_none_right_eq_some] at hroot
      obtain ⟨top, hup, htop⟩ := ih hfind' hroot.2
      exact ⟨top, .step hfind hroot.1 hparent hup, htop⟩

end CommittedAt

/-- Everything from a transaction up to directly below `a` has committed. -/
def CommittedInto (d : Directory) (a id : TxnId) : Prop :=
  ∃ top, CommittedUpTo d id top ∧ top.parent = some a

namespace CommittedUpTo

variable {d : Directory} {a id : TxnId} {top : View}

theorem ascends (h : CommittedUpTo d id top) (hparent : top.parent = some a) : Ascends d id a := by
  induction h with
  | self hfind => exact .step hfind hparent (.refl a)
  | step hfind _ hparent' _ ih => exact .step hfind hparent' (ih hparent)

/-- The transaction itself has committed; it is the last one to have done so, or its parent has too. -/
theorem of_find (h : CommittedUpTo d id top) {v : View} (hv : d.find? id = some v) :
    v.phase = .committed ∧
      (top = v ∨ ∃ parent, v.parent = some parent ∧ CommittedUpTo d parent top) := by
  cases h with
  | self hfind hphase =>
      cases hv.symm.trans hfind
      exact ⟨hphase, .inl rfl⟩
  | step hfind hphase hparent hrest =>
      cases hv.symm.trans hfind
      exact ⟨hphase, .inr ⟨_, hparent, hrest⟩⟩

/-- Whoever stands below work in progress has no committed root. -/
theorem not_committedAt (hd : d.Sound) (h : CommittedUpTo d id top) (hparent : top.parent = some a)
    {v : View} (hv : d.find? a = some v) (hactive : v.phase = .active) {ts : Timestamp} :
    ¬ CommittedAt d id ts := by
  intro hcommitted
  have hphase := hcommitted.committed_of_ascends hd (h.ascends hparent) hv
  simp [hactive] at hphase

end CommittedUpTo

namespace Lineage

variable {d : Directory} {l : Lineage} {v : View} {us : List View}

theorem contains_iff_ascends (hd : d.Sound) (hv : d.find? v.id = some v) (hpath : Path d v us)
    {a : TxnId} :
    (Lineage.mk v (v.id :: us.map View.id)).contains a = true ↔ Ascends d v.id a := by
  simp only [contains, List.contains_iff_mem, List.mem_cons, List.mem_map]
  constructor
  · rintro (rfl | ⟨u, hu, rfl⟩)
    · exact .refl _
    · exact (hpath.ascends hd hv u hu).1
  · exact hpath.mem_of_ascends hd hv

/-- A walk comes to an end within the permitted length. -/
theorem exists_walk (hd : d.Sound) (l : Lineage) (writer : TxnId) (hpath : Path d v us) {room : Nat}
    (hroom : us.length ≤ room) (hv : d.find? v.id = some v) (below : Option Timestamp) :
    ∃ f, l.walk d writer room below v = .ok f := by
  -- The cases are those of `holds_of_walk`; no failing one is left on a path.
  fun_induction walk l d writer room below v generalizing us with
  | case1 => exact ⟨_, rfl⟩
  | case2 => exact ⟨_, rfl⟩
  | case3 => exact ⟨_, rfl⟩
  | case4 => exact ⟨_, rfl⟩
  | case5 room below v hgo hphase hcommit =>
      obtain ⟨c, hc⟩ := hd.stamped hv hphase
      simp [hcommit] at hc
  | case6 => exact ⟨_, rfl⟩
  | case7 below v hgo hphase commit parent hparent =>
      cases hpath with
      | root hroot => simp [hparent] at hroot
      | child => simp at hroom
  | case8 below v hgo hphase commit parent hparent hcommit hnone room e hget =>
      cases hpath with
      | root hroot => simp [hparent] at hroot
      | child hsome hfind =>
          cases hparent.symm.trans hsome
          simp [Directory.get, hfind] at hget
  | case9 below v hgo hphase commit parent hparent hcommit hnone room u hget ih =>
      cases hpath with
      | root hroot => simp [hparent] at hroot
      | child hsome hfind hrest =>
          cases hparent.symm.trans hsome
          cases (Directory.get_eq_ok_iff.1 hget).symm.trans hfind
          have hkeyed : u.id = parent := hd.keyed hfind
          exact ih hrest (by simpa using hroom) (hkeyed ▸ hfind)

theorem exists_resolveWriter (hd : d.Sound) (l : Lineage) (hv : d.find? v.id = some v)
    (hpath : Path d v us) (hlength : us.length ≤ maxAncestors) :
    ∃ f, l.resolveWriter d v.id = .ok f := by
  unfold resolveWriter
  split
  · exact ⟨_, rfl⟩
  · rw [Directory.get_eq_ok_iff.2 hv]
    exact exists_walk hd l v.id hpath hlength hv none

/-- A walk that ends at an element of the lineage starts there, or has passed committed transactions
only. -/
theorem committedUpTo_of_walk (hd : d.Sound) {writer a : TxnId} {room : Nat}
    {below : Option Timestamp} {c : Timestamp} (hv : d.find? v.id = some v)
    (h : l.walk d writer room below v = .ok (.committedInto a c)) :
    (a = v.id ∧ below = some c) ∨
      ∃ top, CommittedUpTo d v.id top ∧ top.parent = some a ∧ top.commit = some c := by
  fun_induction walk l d writer room below v with
  | case1 room below v commit hstop =>
      cases h
      exact .inl ⟨rfl, (Option.filter_eq_some_iff.1 hstop).1⟩
  | case9 below v hgo hphase commit parent hparent hcommit hnone room u hget ih =>
      have hfind := Directory.get_eq_ok_iff.1 hget
      have hkeyed : u.id = parent := hd.keyed hfind
      subst hkeyed
      right
      rcases ih hfind h with ⟨rfl, hbelow⟩ | ⟨top, hup, htop⟩
      · cases hbelow
        exact ⟨v, .self hv hphase, hparent, hcommit⟩
      · exact ⟨top, .step hv hphase hparent hup, htop⟩
  | _ => cases h

/-- Work that is called committed into an element of the lineage was committed up to directly below it,
there at the time that is given. -/
theorem committedUpTo_of_resolveWriter (hd : d.Sound) {writer a : TxnId} {c : Timestamp}
    (h : l.resolveWriter d writer = .ok (.committedInto a c)) :
    ∃ top, CommittedUpTo d writer top ∧ top.parent = some a ∧ top.commit = some c := by
  unfold resolveWriter at h
  split at h
  · cases h
  · split at h
    · contradiction
    · rename_i v hget
      have hfind := Directory.get_eq_ok_iff.1 hget
      have hkeyed : v.id = writer := hd.keyed hfind
      subst hkeyed
      rcases committedUpTo_of_walk hd hfind h with ⟨-, hbelow⟩ | hup
      · cases hbelow
      · exact hup

/-- A walk from work that was committed into an active element of the lineage ends at that element, if
it meets no other one before. -/
theorem walk_of_committedUpTo (hd : d.Sound) {t : View} (ht : d.find? t.id = some t)
    (hactive : t.phase = .active) (hown : l.contains t.id = true)
    (hbelow : ∀ id, CommittedInto d t.id id → l.contains id = false) {writer : TxnId} {room : Nat}
    {below : Option Timestamp} {top : View} (htop : top.parent = some t.id)
    (hup : CommittedUpTo d v.id top) (hv : d.find? v.id = some v) (hpath : Path d v us)
    (hroom : us.length ≤ room) :
    ∃ c, l.walk d writer room below v = .ok (.committedInto t.id c) := by
  obtain ⟨f, hwalk⟩ := exists_walk hd l writer hpath hroom hv below
  fun_induction walk l d writer room below v generalizing us with
  | case1 room below v commit hstop =>
      have hmeets := (Option.filter_eq_some_iff.1 hstop).2
      simp [hbelow _ ⟨top, hup, htop⟩] at hmeets
  | case2 room below v hgo hphase =>
      have hcommitted := (hup.of_find hv).1
      simp [hphase] at hcommitted
  | case3 room below v hgo hphase =>
      have hcommitted := (hup.of_find hv).1
      simp [hphase] at hcommitted
  | case4 room below v hgo hphase root hcached =>
      obtain ⟨us', hpath', hroot⟩ := hd.cached hv hcached
      exact absurd ⟨v, us', hv, hpath', hroot⟩ (hup.not_committedAt hd htop ht hactive)
  | case5 => cases hwalk
  | case6 room below v hgo hphase commit hparent hcommit hnone =>
      rcases (hup.of_find hv).2 with rfl | ⟨parent, hsome, -⟩
      · simp [hparent] at htop
      · simp [hparent] at hsome
  | case7 => cases hwalk
  | case8 => cases hwalk
  | case9 below v hgo hphase commit parent hparent hcommit hnone room u hget ih =>
      have hfind := Directory.get_eq_ok_iff.1 hget
      have hkeyed : u.id = parent := hd.keyed hfind
      subst hkeyed
      cases hpath with
      | root hroot => simp [hparent] at hroot
      | child hsome hfind' hrest =>
          cases hparent.symm.trans hsome
          cases hfind.symm.trans hfind'
          rcases (hup.of_find hv).2 with rfl | ⟨parent, hsome', hup'⟩
          · have hend : u.id = t.id := Option.some.inj (hparent.symm.trans htop)
            refine ⟨commit, ?_⟩
            unfold walk
            simp [Option.filter, hend, hown]
          · cases hparent.symm.trans hsome'
            exact ih hup' hfind hrest (by simpa using hroom) hwalk

/-- **Work that was committed into an active element of the lineage is called so.** -/
theorem resolveWriter_of_committedInto (hd : d.Sound) {t : View} (ht : d.find? t.id = some t)
    (hactive : t.phase = .active) (hown : l.contains t.id = true)
    (hbelow : ∀ id, CommittedInto d t.id id → l.contains id = false)
    (hinto : CommittedInto d t.id v.id) (hv : d.find? v.id = some v) (hpath : Path d v us)
    (hlength : us.length ≤ maxAncestors) :
    ∃ c, l.resolveWriter d v.id = .ok (.committedInto t.id c) := by
  obtain ⟨top, hup, htop⟩ := hinto
  unfold resolveWriter
  rw [if_neg (by simp [hbelow _ ⟨top, hup, htop⟩]), Directory.get_eq_ok_iff.2 hv]
  exact walk_of_committedUpTo hd ht hactive hown hbelow htop hup hv hpath hlength

end Lineage

end Multiversion
