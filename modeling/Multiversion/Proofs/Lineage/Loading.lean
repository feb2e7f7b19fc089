import Mathlib.Data.List.Forall2
import Mathlib.Data.List.Nodup
import Multiversion.Proofs.Lineage.Path

/-!
# Loading a lineage

A lineage can be loaded exactly if parent links lead to a root within the permitted depth, and then it is
the transaction with its ancestors, nearest first.

* `Line` — the ids that parent links lead to, up to a root, whatever the records under them say.

Main statements: `Lineage.load_eq_ok_iff`; a loaded lineage has a path (`Lineage.path_of_load`), and a
transaction with a path of permitted length can be loaded (`Lineage.load_isOk_iff`, `Lineage.load_of_path`).
-/

namespace Multiversion

/-- The ids that parent links lead to, nearest first, up to a root. -/
inductive Line (d : Directory) : Option TxnId → List TxnId → Prop
  | root : Line d none []
  | child {parent : TxnId} {u : View} {ids : List TxnId} (hfind : d.find? parent = some u)
      (h : Line d u.parent ids) : Line d (some parent) (parent :: ids)

namespace Line

variable {d : Directory} {link : Option TxnId} {ids ids' : List TxnId}

theorem unique (h : Line d link ids) (h' : Line d link ids') : ids = ids' := by
  induction h generalizing ids' with
  | root => cases h'; rfl
  | child hfind _ ih =>
      cases h' with
      | child hfind' h' =>
          cases hfind.symm.trans hfind'
          rw [ih h']

theorem suffix (h : Line d link ids) {id : TxnId} (hid : id ∈ ids) :
    ∃ above, Line d (some id) (id :: above) ∧ above.length < ids.length := by
  induction h with
  | root => cases hid
  | @child parent u ids hfind h ih =>
      rcases List.mem_cons.1 hid with rfl | hid
      · exact ⟨ids, .child hfind h, Nat.lt_succ_self _⟩
      · obtain ⟨above, hline, hlength⟩ := ih hid
        exact ⟨above, hline, Nat.lt_succ_of_lt hlength⟩

/-- **Links that lead to a root** do not come to an id twice. -/
theorem nodup (h : Line d link ids) : ids.Nodup := by
  induction h with
  | root => exact .nil
  | child hfind h ih =>
      refine List.nodup_cons.2 ⟨fun hmem => ?_, ih⟩
      obtain ⟨above, hline, hlength⟩ := h.suffix hmem
      cases hline.unique (.child hfind h)
      omega

/-- A path has a line, of the ids that its records are found under. -/
theorem of_path {v : View} {us : List View} (h : Path d v us) :
    ∃ ids, Line d v.parent ids ∧ List.Forall₂ (fun id u => d.find? id = some u) ids us := by
  induction h with
  | root hroot => exact ⟨[], hroot ▸ .root, .nil⟩
  | child hparent hfind _ ih =>
      obtain ⟨ids, hline, hfound⟩ := ih
      rw [hparent]
      exact ⟨_, .child hfind hline, .cons hfind hfound⟩

/-- A line has a path, of the records that its ids lead to. -/
theorem path (h : Line d link ids) {v : View} (hlink : v.parent = link) :
    ∃ us, Path d v us ∧ us.length = ids.length := by
  induction h generalizing v with
  | root => exact ⟨[], .root hlink, rfl⟩
  | child hfind _ ih =>
      obtain ⟨us, hpath, hlength⟩ := ih rfl
      exact ⟨_, .child hlink hfind hpath, congrArg Nat.succ hlength⟩

end Line

namespace Lineage

variable {d : Directory} {v : View}

/-- **Collecting ancestors** succeeds exactly along links that lead to a root within the permitted depth,
over ids that have not been found yet. -/
theorem collect_eq_ok_iff {subject : TxnId} {room : Nat} {ids found : List TxnId}
    {link : Option TxnId} :
    collect d subject room ids link = .ok found ↔
      ∃ above, Line d link above ∧ above.length ≤ room ∧ above.Disjoint ids ∧ found = ids ++ above := by
  constructor
  · intro h
    fun_induction collect d subject room ids link with
    | case1 room ids =>
        cases h
        exact ⟨[], .root, Nat.zero_le _, List.disjoint_nil_left _, (List.append_nil _).symm⟩
    | case2 => cases h
    | case3 => cases h
    | case4 => cases h
    | case5 room ids parent hnew u hget ih =>
        obtain ⟨above, hline, hlength, hdisjoint, hfound⟩ := ih h
        have hrest := List.disjoint_append_right.1 hdisjoint
        refine ⟨parent :: above, .child (Directory.get_eq_ok_iff.1 hget) hline, Nat.succ_le_succ hlength,
          List.disjoint_cons_left.2 ⟨by simpa using hnew, hrest.1⟩, ?_⟩
        simpa using hfound
  · rintro ⟨above, hline, hlength, hdisjoint, rfl⟩
    induction hline generalizing room ids with
    | root => cases room <;> simp [collect]
    | @child parent u above hfind hline ih =>
        obtain ⟨hnew, hrest⟩ := List.disjoint_cons_left.1 hdisjoint
        obtain ⟨room, rfl⟩ := Nat.exists_eq_add_of_le' (Nat.one_le_of_lt hlength)
        have hnodup := (Line.child hfind hline).nodup
        have hnew' : above.Disjoint (ids ++ [parent]) :=
          List.disjoint_append_right.2
            ⟨hrest, List.disjoint_singleton.2 (List.nodup_cons.1 hnodup).1⟩
        have happend := ih (Nat.le_of_succ_le_succ hlength) hnew'
        rw [collect]
        simpa [hnew, Directory.get_eq_ok_iff.2 hfind] using happend

/-- **A lineage** is a transaction with its ancestors, nearest first and none of them twice, up to a root
within the permitted depth. -/
theorem load_eq_ok_iff {l : Lineage} :
    load d v = .ok l ↔ l.view = v ∧ l.ids.Nodup ∧
      ∃ above, Line d v.parent above ∧ above.length ≤ maxAncestors ∧ l.ids = v.id :: above := by
  have hcollect : load d v = .ok l ↔
      l.view = v ∧ collect d v.id maxAncestors [v.id] v.parent = .ok l.ids := by
    obtain ⟨view, ids⟩ := l
    unfold load
    cases collect d v.id maxAncestors [v.id] v.parent with
    | error e => simp
    | ok found => simp [eq_comm]
  rw [hcollect, collect_eq_ok_iff]
  refine and_congr_right fun _ => ⟨?_, ?_⟩
  · rintro ⟨above, hline, hlength, hdisjoint, hids⟩
    rw [hids]
    exact ⟨List.nodup_cons.2 ⟨List.disjoint_singleton.1 hdisjoint, hline.nodup⟩, above, hline, hlength, rfl⟩
  · rintro ⟨hnodup, above, hline, hlength, hids⟩
    rw [hids] at hnodup ⊢
    exact ⟨above, hline, hlength, List.disjoint_singleton.2 (List.nodup_cons.1 hnodup).1, rfl⟩

/-- A loaded lineage has a path of permitted length. -/
theorem path_of_load {l : Lineage} (h : load d v = .ok l) :
    l.view = v ∧ ∃ us, Path d v us ∧ us.length ≤ maxAncestors := by
  obtain ⟨hview, -, above, hline, hlength, -⟩ := load_eq_ok_iff.1 h
  obtain ⟨us, hpath, hsame⟩ := hline.path rfl
  exact ⟨hview, us, hpath, hsame ▸ hlength⟩

/-- A transaction with a path can be loaded exactly if the path is not too long. -/
theorem load_isOk_iff {us : List View} (hv : d.find? v.id = some v) (hpath : Path d v us) :
    (∃ own, load d v = .ok own) ↔ us.length ≤ maxAncestors := by
  obtain ⟨above, hline, hfound⟩ := Line.of_path hpath
  constructor
  · rintro ⟨own, hload⟩
    obtain ⟨-, -, above', hline', hshort, -⟩ := load_eq_ok_iff.1 hload
    rwa [← hfound.length_eq, hline.unique hline']
  · intro hshort
    have hnodup : (v.id :: above).Nodup := (Line.child hv hline).nodup
    exact ⟨{ view := v, ids := v.id :: above },
      load_eq_ok_iff.2 ⟨rfl, hnodup, above, hline, hfound.length_eq ▸ hshort, rfl⟩⟩

/-- On a sound directory, a transaction with a path of permitted length can be loaded with all its
ancestors. -/
theorem load_of_path (hd : d.Sound) {us : List View} (hv : d.find? v.id = some v) (hpath : Path d v us)
    (hlength : us.length ≤ maxAncestors) :
    load d v = .ok { view := v, ids := v.id :: us.map View.id } := by
  obtain ⟨above, hline, hfound⟩ := Line.of_path hpath
  have hsame : List.Forall₂ (· = ·) above (us.map View.id) :=
    List.forall₂_map_right_iff.2 (hfound.imp fun _ _ hfind => (hd.keyed hfind).symm)
  obtain rfl : above = us.map View.id := by rwa [List.forall₂_eq_eq_eq] at hsame
  have hnodup : (v.id :: us.map View.id).Nodup := (Line.child hv hline).nodup
  exact load_eq_ok_iff.2 ⟨rfl, hnodup, _, hline, hfound.length_eq ▸ hlength, rfl⟩

end Lineage

end Multiversion
