import Multiversion.Lineage.Basic

/-!
# Paths to the root

Parent links as a relation, beside the bounded walks that follow them.

* `Path d v us` — the ancestors of `v`, nearest first, up to a root;
* `Ascends d id a` — `a` is `id` itself or one of its ancestors;
* `rootCommit v us` — the commit timestamp of the root, if the whole path has committed;
* `Directory.Sound` — records stand under their own ids, committed ones carry a timestamp, and a cached
  timestamp is the one of the root of a committed path;
* `Fate.Holds` — what a fate says about the records it was read off.

Main statement: on a sound directory every fate that a walk returns holds (`Lineage.holds_of_walk`,
`Lineage.holds_of_resolveWriter`).
-/

namespace Multiversion

/-- The ancestors of a transaction, nearest first, up to a root. -/
inductive Path (d : Directory) : View → List View → Prop
  | root {v : View} (hroot : v.parent = none) : Path d v []
  | child {v u : View} {us : List View} {parent : TxnId} (hparent : v.parent = some parent)
      (hfind : d.find? parent = some u) (hpath : Path d u us) : Path d v (u :: us)

/-- Whether following parent links from one id leads to another. -/
inductive Ascends (d : Directory) : TxnId → TxnId → Prop
  | refl (id : TxnId) : Ascends d id id
  | step {id parent a : TxnId} {v : View} (hfind : d.find? id = some v)
      (hparent : v.parent = some parent) (h : Ascends d parent a) : Ascends d id a

/-- The commit timestamp of the root, if everything from the transaction up to it has committed. -/
def rootCommit : View → List View → Option Timestamp
  | v, [] => if v.phase = .committed then v.commit else none
  | v, u :: us => if v.phase = .committed then rootCommit u us else none

/-- An ancestor, or the transaction itself, has rolled back. -/
def Doomed (d : Directory) (id : TxnId) : Prop :=
  ∃ a v, Ascends d id a ∧ d.find? a = some v ∧ v.phase = .rolledBack

/-- The records of a table in which timestamps are cached by background work only. -/
structure Directory.Sound (d : Directory) : Prop where
  -- Records stand under their own ids.
  keyed : ∀ {id : TxnId} {v : View}, d.find? id = some v → v.id = id
  -- Committed records carry a commit timestamp.
  stamped : ∀ {id : TxnId} {v : View}, d.find? id = some v → v.phase = .committed →
    ∃ c, v.commit = some c
  -- A cached timestamp is that of the root of a committed path.
  cached : ∀ {id : TxnId} {v : View} {g : Timestamp}, d.find? id = some v →
    v.globalCommit = some g → ∃ us, Path d v us ∧ rootCommit v us = some g

/-- What a fate of the work of `writer` says about the records, seen from a lineage. -/
def Fate.Holds (d : Directory) (l : Lineage) (writer : TxnId) : Fate → Prop
  | .own => ∃ a, l.contains a = true ∧ Ascends d writer a
  | .committedInto a _ => l.contains a = true ∧ Ascends d writer a
  | .committed c _ => ∃ v us, d.find? writer = some v ∧ Path d v us ∧ rootCommit v us = some c
  | .active a _ => ∃ v, Ascends d writer a ∧ d.find? a = some v ∧ v.phase = .active
  | .rolledBack => Doomed d writer

namespace Directory

theorem get_eq_ok_iff {d : Directory} {id : TxnId} {v : View} :
    d.get id = .ok v ↔ d.find? id = some v := by
  unfold get
  cases d.find? id <;> simp

theorem phase_eq_ok_iff {d : Directory} {id : TxnId} {p : Phase} :
    d.phase id = .ok p ↔ ∃ v, d.find? id = some v ∧ v.phase = p := by
  unfold phase get
  cases d.find? id with
  | none => simp [Functor.map, Except.map]
  | some v => simp [Functor.map, Except.map]

end Directory

namespace Ascends

variable {d : Directory} {id a : TxnId} {v : View}

theorem eq_of_root (h : Ascends d id a) (hv : d.find? id = some v) (hroot : v.parent = none) :
    a = id := by
  cases h with
  | refl => rfl
  | step hfind hparent =>
      cases hv.symm.trans hfind
      simp [hroot] at hparent

/-- Above a nested transaction stands its parent, and what is above that. -/
theorem of_parent {parent : TxnId} (h : Ascends d id a) (hne : a ≠ id) (hv : d.find? id = some v)
    (hparent : v.parent = some parent) : Ascends d parent a := by
  cases h with
  | refl => exact absurd rfl hne
  | step hfind hparent' h =>
      cases hv.symm.trans hfind
      cases hparent.symm.trans hparent'
      exact h

end Ascends

namespace Path

variable {d : Directory} {v : View} {us : List View}

theorem unique {us' : List View} (h : Path d v us) (h' : Path d v us') : us = us' := by
  induction h generalizing us' with
  | root hroot =>
      cases h' with
      | root => rfl
      | child hparent => simp [hroot] at hparent
  | child hparent hfind hpath ih =>
      cases h' with
      | root hroot => simp [hroot] at hparent
      | child hparent' hfind' hpath' =>
          cases hparent.symm.trans hparent'
          cases hfind.symm.trans hfind'
          rw [ih hpath']

theorem ascends (hd : d.Sound) (h : Path d v us) (hv : d.find? v.id = some v) :
    ∀ u ∈ us, Ascends d v.id u.id ∧ d.find? u.id = some u := by
  induction h with
  | root => simp
  | @child v u us parent hparent hfind hpath ih =>
      intro w hw
      have hkeyed : u.id = parent := hd.keyed hfind
      have hu : d.find? u.id = some u := by rw [hkeyed, hfind]
      rcases List.mem_cons.1 hw with rfl | hw
      · refine ⟨.step hv hparent ?_, hu⟩
        rw [hkeyed]
        exact .refl parent
      · obtain ⟨hascends, hrecorded⟩ := ih hu w hw
        exact ⟨.step hv hparent (hkeyed ▸ hascends), hrecorded⟩

/-- What parent links reach from a transaction with a path is on the path. -/
theorem mem_of_ascends (hd : d.Sound) (h : Path d v us) (hv : d.find? v.id = some v) {a : TxnId}
    (ha : Ascends d v.id a) : a = v.id ∨ ∃ u ∈ us, u.id = a := by
  induction h with
  | root hroot =>
      cases ha with
      | refl => exact .inl rfl
      | step hfind hparent =>
          rw [hv] at hfind
          cases hfind
          simp [hroot] at hparent
  | @child v u us parent hparent hfind hpath ih =>
      cases ha with
      | refl => exact .inl rfl
      | step hfind' hparent' hrest =>
          rw [hv] at hfind'
          cases hfind'
          cases hparent.symm.trans hparent'
          have hkeyed : u.id = parent := hd.keyed hfind
          subst hkeyed
          right
          rcases ih hfind hrest with rfl | ⟨w, hw, rfl⟩
          · exact ⟨u, List.mem_cons_self, rfl⟩
          · exact ⟨w, List.mem_cons_of_mem _ hw, rfl⟩

theorem suffix (h : Path d v us) {u : View} (hu : u ∈ us) :
    ∃ us', Path d u us' ∧ us'.length < us.length := by
  induction h with
  | root => simp at hu
  | @child v w us parent hparent hfind hpath ih =>
      rcases List.mem_cons.1 hu with rfl | hu
      · exact ⟨us, hpath, by simp⟩
      · obtain ⟨us', hpath', hlength⟩ := ih hu
        refine ⟨us', hpath', ?_⟩
        rw [List.length_cons]
        omega

/-- No transaction is its own ancestor. -/
theorem ne_of_mem (hd : d.Sound) (h : Path d v us) (hv : d.find? v.id = some v) {u : View}
    (hu : u ∈ us) : u.id ≠ v.id := by
  intro hid
  have hrecorded := (h.ascends hd hv u hu).2
  rw [hid, hv] at hrecorded
  cases hrecorded
  obtain ⟨us', hpath', hlength⟩ := h.suffix hu
  rw [hpath'.unique h] at hlength
  omega

/-- A path is a path of any table in which its records are the same. -/
theorem of_agree {d' : Directory} (hd : d.Sound) (h : Path d v us)
    (hagree : ∀ u ∈ us, d'.find? u.id = some u) : Path d' v us := by
  induction h with
  | root hroot => exact .root hroot
  | @child v u us parent hparent hfind hpath ih =>
      have hkeyed : u.id = parent := hd.keyed hfind
      refine .child hparent ?_ (ih fun w hw => hagree w (List.mem_cons_of_mem _ hw))
      rw [← hkeyed]
      exact hagree u List.mem_cons_self

end Path

theorem committed_of_rootCommit {v : View} {us : List View} {c : Timestamp}
    (h : rootCommit v us = some c) : v.phase = .committed ∧ ∀ u ∈ us, u.phase = .committed := by
  induction us generalizing v with
  | nil =>
      simp only [rootCommit, Option.ite_none_right_eq_some] at h
      exact ⟨h.1, fun _ hu => absurd hu List.not_mem_nil⟩
  | cons u us ih =>
      simp only [rootCommit, Option.ite_none_right_eq_some] at h
      obtain ⟨hu, hus⟩ := ih h.2
      refine ⟨h.1, fun w hw => ?_⟩
      rcases List.mem_cons.1 hw with rfl | hw
      · exact hu
      · exact hus w hw

/-- What holds of the parent of a committed transaction holds of the transaction. -/
theorem Fate.Holds.of_parent {d : Directory} {l : Lineage} {v u : View} {f : Fate}
    (h : f.Holds d l u.id) (hv : d.find? v.id = some v) (hphase : v.phase = .committed)
    {parent : TxnId} (hparent : v.parent = some parent) (hu : d.find? u.id = some u)
    (hkeyed : u.id = parent) : f.Holds d l v.id := by
  subst hkeyed
  cases f with
  | own =>
      obtain ⟨a, hmem, hascends⟩ := h
      exact ⟨a, hmem, .step hv hparent hascends⟩
  | committedInto a c => exact ⟨h.1, .step hv hparent h.2⟩
  | committed c via =>
      obtain ⟨w, us, hw, hpath, hroot⟩ := h
      rw [hu] at hw
      cases hw
      exact ⟨v, u :: us, hv, .child hparent hu hpath, by simp [rootCommit, hphase, hroot]⟩
  | active a expired =>
      obtain ⟨w, hascends, hw⟩ := h
      exact ⟨w, .step hv hparent hascends, hw⟩
  | rolledBack =>
      obtain ⟨a, w, hascends, hw⟩ := h
      exact ⟨a, w, .step hv hparent hascends, hw⟩

namespace Lineage

/-- The lineage of a top-level transaction. -/
def ofRoot (v : View) : Lineage := { view := v, ids := [v.id] }

theorem contains_ofRoot {v : View} {id : TxnId} : (ofRoot v).contains id = true ↔ id = v.id := by
  simp [contains, ofRoot]

theorem load_root {d : Directory} {v : View} (h : v.parent = none) : load d v = .ok (ofRoot v) := by
  simp [load, h, collect, ofRoot]

/-- On a sound directory every fate that a walk returns holds. -/
theorem holds_of_walk {d : Directory} (hd : d.Sound) {l : Lineage} {writer : TxnId} {room : Nat}
    {below : Option Timestamp} {v : View} {f : Fate} (hv : d.find? v.id = some v)
    (h : l.walk d writer room below v = .ok f) : f.Holds d l v.id := by
  -- One case for each way in which the walk ends, and the last one where it goes on.
  fun_induction walk l d writer room below v with
  | case1 room below v commit hstop =>
      cases h
      exact ⟨(Option.filter_eq_some_iff.1 hstop).2, .refl _⟩
  | case2 room below v hgo hphase =>
      cases h
      exact ⟨_, v, .refl _, hv, hphase⟩
  | case3 room below v hgo hphase =>
      cases h
      exact ⟨v, .refl _, hv, hphase⟩
  | case4 room below v hgo hphase root hcached =>
      cases h
      obtain ⟨us, hpath, hroot⟩ := hd.cached hv hcached
      exact ⟨v, us, hv, hpath, hroot⟩
  | case5 => contradiction
  | case6 room below v hgo hphase commit hparent hcommit hnone =>
      cases h
      exact ⟨v, [], hv, .root hparent, by simp [rootCommit, hphase, hcommit]⟩
  | case7 => contradiction
  | case8 => contradiction
  | case9 below v hgo hphase commit parent hparent hcommit hnone room u hget ih =>
      have hfind := Directory.get_eq_ok_iff.1 hget
      have hkeyed : u.id = parent := hd.keyed hfind
      exact (ih (hkeyed ▸ hfind) h).of_parent hv hphase hparent (hkeyed ▸ hfind) hkeyed

theorem holds_of_resolveWriter {d : Directory} (hd : d.Sound) {l : Lineage} {writer : TxnId}
    {f : Fate} (h : l.resolveWriter d writer = .ok f) : f.Holds d l writer := by
  unfold resolveWriter at h
  split at h
  · rename_i hown
    cases h
    exact ⟨writer, hown, .refl writer⟩
  · split at h
    · contradiction
    · rename_i v hget
      have hfind := Directory.get_eq_ok_iff.1 hget
      have hkeyed : v.id = writer := hd.keyed hfind
      rw [← hkeyed] at hfind ⊢
      exact holds_of_walk hd hfind h

end Lineage

end Multiversion
