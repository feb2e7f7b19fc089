import Multiversion.Proofs.Lineage.Path
import Multiversion.Proofs.Store.Records
import Multiversion.Resolution.Request

/-!
# How records change over time

Along a run a record keeps everything but its phase and its timestamps, and a finished transaction keeps
its outcome (`View.Evolves`).  A later directory has a later version of every record
(`Directory.Later`), and what is known about committed paths and rolled-back ancestors stays true
there.

Main statements: a request leads to a later directory (`TxnStore.later_submit`), and an honest one
keeps the directory sound (`TxnStore.sound_submit`); the changes that background work asks for are
honest (`Request.honest_of_decide`).
-/

namespace Multiversion

/-- What stays the same when a record changes. -/
structure View.Evolves (v v' : View) : Prop where
  id : v'.id = v.id
  begin : v'.begin = v.begin
  parent : v'.parent = v.parent
  isolation : v'.isolation = v.isolation
  additive : v'.additive = v.additive
  -- A finished transaction stays as it ended.
  phase : v.phase ≠ .active → v'.phase = v.phase
  -- A committed transaction keeps its commit timestamp.
  commit : v.phase = .committed → v'.commit = v.commit

/-- A later state of a transaction table: no record is lost, and every record has evolved. -/
def Directory.Later (d d' : Directory) : Prop :=
  ∀ id v, d.find? id = some v → ∃ v', d'.find? id = some v' ∧ v.Evolves v'

/-- A change that caches a timestamp only if it is that of the root of a committed path. -/
def Change.Honest (d : Directory) : Change → Prop
  | .globalCommit id ts => ∃ v us, d.find? id = some v ∧ Path d v us ∧ rootCommit v us = some ts
  | _ => True

namespace View.Evolves

theorem refl (v : View) : v.Evolves v := ⟨rfl, rfl, rfl, rfl, rfl, fun _ => rfl, fun _ => rfl⟩

theorem trans {u v w : View} (h : u.Evolves v) (h' : v.Evolves w) : u.Evolves w where
  id := h'.id.trans h.id
  begin := h'.begin.trans h.begin
  parent := h'.parent.trans h.parent
  isolation := h'.isolation.trans h.isolation
  additive := h'.additive.trans h.additive
  phase hdone := by
    have hv := h.phase hdone
    exact (h'.phase (hv ▸ hdone)).trans hv
  commit hcommitted := by
    have hv : v.phase = .committed := by
      rw [h.phase (by simp [hcommitted]), hcommitted]
    exact (h'.commit hv).trans (h.commit hcommitted)

theorem committed {v v' : View} (h : v.Evolves v') (hphase : v.phase = .committed) :
    v'.phase = .committed := by
  rw [h.phase (by simp [hphase]), hphase]

theorem rolledBack {v v' : View} (h : v.Evolves v') (hphase : v.phase = .rolledBack) :
    v'.phase = .rolledBack := by
  rw [h.phase (by simp [hphase]), hphase]

theorem active {v v' : View} (h : v.Evolves v') (hphase : v'.phase = .active) :
    v.phase = .active := by
  cases hv : v.phase with
  | active => rfl
  | committed => simp [h.committed hv] at hphase
  | rolledBack => simp [h.rolledBack hv] at hphase

end View.Evolves

theorem Change.Accepted.evolves {now : Millis} {change : Change} {e e' : Entry}
    (h : Change.Accepted now change (some e) e') : e.view.Evolves e'.view := by
  cases h with
  | commit hactive => exact ⟨rfl, rfl, rfl, rfl, rfl, fun h => absurd hactive h, by simp [hactive]⟩
  | rollback hactive => exact ⟨rfl, rfl, rfl, rfl, rfl, fun h => absurd hactive h, by simp [hactive]⟩
  | globalCommit => exact ⟨rfl, rfl, rfl, rfl, rfl, fun _ => rfl, fun _ => rfl⟩
  | keepAlive => exact .refl _

namespace Directory.Later

variable {d d' d'' : Directory}

theorem refl (d : Directory) : d.Later d := fun _ v hfind => ⟨v, hfind, .refl v⟩

theorem trans (h : d.Later d') (h' : d'.Later d'') : d.Later d'' := by
  intro id v hfind
  obtain ⟨v', hfind', hevolves⟩ := h id v hfind
  obtain ⟨v'', hfind'', hevolves'⟩ := h' id v' hfind'
  exact ⟨v'', hfind'', hevolves.trans hevolves'⟩

/-- Two directories with the same records are each later than the other. -/
theorem of_find?_eq (h : ∀ id, d'.find? id = d.find? id) : d.Later d' := by
  intro id v hfind
  exact ⟨v, (h id).trans hfind, .refl v⟩

theorem ascends (h : d.Later d') {id a : TxnId} (ha : Ascends d id a) : Ascends d' id a := by
  induction ha with
  | refl id => exact .refl id
  | step hfind hparent _ ih =>
      obtain ⟨v', hfind', hevolves⟩ := h _ _ hfind
      exact .step hfind' (hevolves.parent.trans hparent) ih

/-- Whoever has a path keeps one of that length, and a commit timestamp of its root stays. -/
theorem path (h : d.Later d') {v v' : View} {us : List View} (hpath : Path d v us)
    (hevolves : v.Evolves v') : ∃ us', Path d' v' us' ∧ us'.length = us.length ∧
      ∀ c, rootCommit v us = some c → rootCommit v' us' = some c := by
  induction hpath generalizing v' with
  | root hroot =>
      refine ⟨[], .root (hevolves.parent.trans hroot), rfl, fun c hc => ?_⟩
      simp only [rootCommit, Option.ite_none_right_eq_some] at hc ⊢
      exact ⟨hevolves.committed hc.1, (hevolves.commit hc.1).trans hc.2⟩
  | @child v u us parent hparent hfind hpath ih =>
      obtain ⟨u', hfind', hevolves'⟩ := h _ _ hfind
      obtain ⟨us', hpath', hlength, hroot⟩ := ih hevolves'
      refine ⟨u' :: us', .child (hevolves.parent.trans hparent) hfind' hpath', ?_, fun c hc => ?_⟩
      · simp [hlength]
      · simp only [rootCommit, Option.ite_none_right_eq_some] at hc ⊢
        exact ⟨hevolves.committed hc.1, hroot c hc.2⟩

theorem doomed (h : d.Later d') {id : TxnId} (hdoomed : Doomed d id) : Doomed d' id := by
  obtain ⟨a, v, hascends, hfind, hphase⟩ := hdoomed
  obtain ⟨v', hfind', hevolves⟩ := h a v hfind
  exact ⟨a, v', h.ascends hascends, hfind', hevolves.rolledBack hphase⟩

end Directory.Later

/-- Of two tables with the same records both are sound, or neither. -/
theorem Directory.Sound.congr {d d' : Directory} (hd : d.Sound) (hsame : ∀ id, d'.find? id = d.find? id) :
    d'.Sound := by
  refine ⟨fun {id v} hv => ?_, fun {id v} hv => ?_, fun {id v g} hv hcached => ?_⟩
  · exact hd.keyed (hsame id ▸ hv)
  · exact hd.stamped (hsame id ▸ hv)
  · rw [hsame] at hv
    obtain ⟨us, hpath, hroot⟩ := hd.cached hv hcached
    obtain ⟨us', hpath', -, hroot'⟩ := (Directory.Later.of_find?_eq hsame).path hpath (.refl v)
    exact ⟨us', hpath', hroot' g hroot⟩

namespace TxnStore

/-- **Requests only move records forward.** -/
theorem later_submit (t : TxnStore) (now now' : Millis) (change : Change) :
    (t.directory now).Later ((t.submit now change).2.directory now') := by
  rcases t.directory_submit now now' change with hsame | ⟨old, e, haccepted, hold, hnew, hothers⟩
  · exact .of_find?_eq hsame
  · intro id v hfind
    by_cases hid : id = change.txn
    · subst hid
      obtain ⟨entry, rfl, rfl⟩ := Option.map_eq_some_iff.1 (hold.symm.trans hfind)
      exact ⟨e.view, hnew, haccepted.evolves⟩
    · exact ⟨v, (hothers id hid).trans hfind, .refl v⟩

/-- The record that an accepted change leaves is as the directory of a sound table requires, read at
the directory `d` from which the change was decided. -/
theorem sound_accepted {d d' : Directory} (hd : d.Sound) (hlater : d.Later d') {now : Millis}
    {change : Change} (hhonest : change.Honest d) {old : Option Entry} {e : Entry}
    (hold : d.find? change.txn = old.map Entry.view) (h : Change.Accepted now change old e)
    (hnew : d'.find? change.txn = some e.view) :
    e.view.id = change.txn ∧ (e.view.phase = .committed → ∃ c, e.view.commit = some c) ∧
      ∀ g, e.view.globalCommit = some g →
        ∃ us, Path d' e.view us ∧ rootCommit e.view us = some g := by
  have hkept : ∀ {v : View} {g : Timestamp}, d.find? change.txn = some v →
      v.globalCommit = some g → ∃ us, Path d' e.view us ∧ rootCommit e.view us = some g := by
    intro v g hv hcached
    obtain ⟨us, hpath, hroot⟩ := hd.cached hv hcached
    obtain ⟨v', hv', hevolves⟩ := hlater _ _ hv
    rw [hnew] at hv'
    cases hv'
    obtain ⟨us', hpath', -, hroot'⟩ := hlater.path hpath hevolves
    exact ⟨us', hpath', hroot' g hroot⟩
  cases h with
  | begin hactive hcommit => exact ⟨rfl, by simp [hactive], by simp⟩
  | commit hactive hbegin =>
      have hkeyed := hd.keyed hold
      exact ⟨hkeyed, fun _ => ⟨_, rfl⟩, fun g hg => hkept hold hg⟩
  | rollback hactive =>
      have hkeyed := hd.keyed hold
      exact ⟨hkeyed, by simp, fun g hg => hkept hold hg⟩
  | globalCommit hcommitted hnone =>
      have hkeyed := hd.keyed hold
      have hstamped := hd.stamped hold hcommitted
      refine ⟨hkeyed, fun _ => hstamped, fun g hg => ?_⟩
      obtain ⟨v, us, hfind, hpath, hroot⟩ := hhonest
      obtain ⟨v', hv', hevolves⟩ := hlater _ _ hfind
      cases hnew.symm.trans hv'
      obtain ⟨us', hpath', -, hroot'⟩ := hlater.path hpath hevolves
      cases hg
      exact ⟨us', hpath', hroot' _ hroot⟩
  | keepAlive hactive =>
      exact ⟨hd.keyed hold, fun h => hd.stamped hold h, fun g hg => hkept hold hg⟩

/-- **Honest requests keep a table sound.** -/
theorem sound_submit {t : TxnStore} {now : Millis} (hd : (t.directory now).Sound) {change : Change}
    (hhonest : change.Honest (t.directory now)) (now' : Millis) :
    ((t.submit now change).2.directory now').Sound := by
  have hlater := t.later_submit now now' change
  have hcases : ∀ {id : TxnId} {v : View},
      ((t.submit now change).2.directory now').find? id = some v →
      (t.directory now).find? id = some v ∨
        v.id = id ∧ (v.phase = .committed → ∃ c, v.commit = some c) ∧
          ∀ g, v.globalCommit = some g →
            ∃ us, Path ((t.submit now change).2.directory now') v us ∧ rootCommit v us = some g := by
    intro id v hfind
    rcases t.directory_submit now now' change with hsame | ⟨old, e, haccepted, hold, hnew, hothers⟩
    · exact .inl ((hsame id).symm.trans hfind)
    · by_cases hid : id = change.txn
      · subst hid
        cases hnew.symm.trans hfind
        exact .inr (sound_accepted hd hlater hhonest hold haccepted hnew)
      · exact .inl ((hothers id hid).symm.trans hfind)
  refine ⟨fun hfind => ?_, fun hfind hphase => ?_, fun {id v g} hfind hcached => ?_⟩
  · rcases hcases hfind with hold | ⟨hid, -, -⟩
    · exact hd.keyed hold
    · exact hid
  · rcases hcases hfind with hold | ⟨-, hstamped, -⟩
    · exact hd.stamped hold hphase
    · exact hstamped hphase
  · rcases hcases hfind with hold | ⟨-, -, hpath⟩
    · obtain ⟨us, hpath, hroot⟩ := hd.cached hold hcached
      obtain ⟨v', hfind', hevolves⟩ := hlater id v hold
      rw [hfind] at hfind'
      cases hfind'
      obtain ⟨us', hpath', -, hroot'⟩ := hlater.path hpath hevolves
      exact ⟨us', hpath', hroot' g hroot⟩
    · exact hpath g hcached

end TxnStore

namespace Request

/-- The walk to the root passes committed transactions only. -/
theorem path_of_rootOf {d : Directory} {subject : TxnId} {room : Nat} {v root : View}
    (hphase : v.phase = .committed) (h : rootOf d subject room v = .ok (some root)) :
    ∃ us, Path d v us ∧ rootCommit v us = root.commit := by
  fun_induction rootOf d subject room v with
  | case1 room v hparent =>
      cases h
      exact ⟨[], .root hparent, by simp [rootCommit, hphase]⟩
  | case2 => contradiction
  | case3 => contradiction
  | case4 v parent hparent room u hget hcommitted ih =>
      obtain ⟨us, hpath, hroot⟩ := ih hcommitted h
      exact ⟨u :: us, .child hparent (Directory.get_eq_ok_iff.1 hget) hpath,
        by simp [rootCommit, hphase, hroot]⟩
  | case5 => simp at h

/-- **Background work is honest**: it caches only the timestamp of the root of a committed path. -/
theorem honest_of_decide {d : Directory} {r : Request} {change : Change}
    (h : r.decide d = .ok (some change)) : change.Honest d := by
  obtain ⟨kind, id⟩ := r
  cases kind with
  | globalCommit =>
      simp only [decide, decideGlobalCommit, bind, Except.bind] at h
      split at h
      · contradiction
      · rename_i v hget
        split at h
        · cases h
        · rename_i hneeded
          split at h
          · contradiction
          · rename_i root hroot
            cases root with
            | none => cases h
            | some root =>
                simp only [Bool.or_eq_true, not_or, decide_eq_true_eq, ne_eq,
                  Classical.not_not] at hneeded
                obtain ⟨us, hpath, hcommit⟩ := path_of_rootOf hneeded.1.1 hroot
                obtain ⟨c, hc, rfl⟩ := Option.map_eq_some_iff.1 (Except.ok.inj h)
                exact ⟨v, us, Directory.get_eq_ok_iff.1 hget, hpath, hcommit.trans hc⟩
  | timedOut =>
      simp only [decide, decideTimedOut, bind, Except.bind] at h
      split at h
      · contradiction
      · split at h
        · cases h
          exact trivial
        · cases h

end Request

end Multiversion
