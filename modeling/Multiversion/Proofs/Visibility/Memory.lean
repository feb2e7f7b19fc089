import Multiversion.Proofs.Lineage.Evolution
import Multiversion.Read

/-!
# Reading without a memory

A reader's view remembers what it has learnt about writers and leaves hand-offs behind.  Neither
changes an answer: every answer is the one that the reader's lineage gives from the records alone.

* `Lineage.fateOf` — the fate of a cell's writer;
* `Lineage.sees` — whether the reader sees a cell;
* `Lineage.firstSeen`, `Lineage.seenRows` — the row value and the rows of a scan;
* `Lineage.CallsFor` — the hand-offs that examining some versions calls for;
* `Visibility.Remembers`, `Visibility.Faithful` — the memory agrees with the records, and every hand-off is
  justified.

Main statements: `Read.get_spec` and `Read.scan_spec` say what the two reads answer and hand over; where all
writers can be resolved, `Read.get_of_resolvable` and `Read.scan_of_resolvable` name the answers.
-/

namespace Multiversion

/-- Whether the records bear a hand-off out. -/
def HandOff.Justified (d : Directory) : HandOff → Prop
  | .rolledBack _ writer => Doomed d writer
  | .committed _ writer ts =>
      ∃ v us, d.find? writer = some v ∧ Path d v us ∧ rootCommit v us = some ts

theorem HandOff.Justified.later {d d' : Directory} {h : HandOff} (hj : h.Justified d)
    (hlater : d.Later d') : h.Justified d' := by
  cases h with
  | rolledBack key writer => exact hlater.doomed hj
  | committed key writer ts =>
      obtain ⟨v, us, hfind, hpath, hroot⟩ := hj
      obtain ⟨v', hfind', hevolves⟩ := hlater _ _ hfind
      obtain ⟨us', hpath', -, hroot'⟩ := hlater.path hpath hevolves
      exact ⟨v', us', hfind', hpath', hroot' ts hroot⟩

namespace Lineage

/-- The fate of a cell's writer.  A cached commit timestamp is believed, unless the writer is on the
lineage. -/
def fateOf (l : Lineage) (d : Directory) (cell : Cell) : Except TxnError Fate :=
  match if l.contains cell.writer then none else cell.commit with
  | some commit => .ok (.committed commit false)
  | none => l.resolveWriter d cell.writer

/-- Whether the reader sees a cell. -/
def sees (l : Lineage) (d : Directory) (cell : Cell) : Bool :=
  match l.fateOf d cell with
  | .ok fate => fate.isVisibleTo l.view
  | .error _ => false

/-- Whether the writers of some cells can all be resolved. -/
def Resolves (l : Lineage) (d : Directory) (cells : List Cell) : Prop :=
  ∀ c ∈ cells, ∃ f, l.fateOf d c = .ok f

/-- The first version that the reader sees; none if there is none or it marks a deletion. -/
def firstSeen (l : Lineage) (d : Directory) : List Cell → Except TxnError (Option Cell)
  | [] => .ok none
  | cell :: rest =>
      match l.fateOf d cell with
      | .error e => .error e
      | .ok fate =>
          if fate.isVisibleTo l.view then .ok (if cell.isTombstone then none else some cell)
          else firstSeen l d rest

/-- The values that the reader sees of rows fetched with all their versions. -/
def seenRows (l : Lineage) (d : Directory) :
    List (Bytes × List Cell) → Except TxnError (List Mutation)
  | [] => .ok []
  | (key, versions) :: rest =>
      match l.firstSeen d versions with
      | .error e => .error e
      | .ok cell =>
          match seenRows l d rest with
          | .error e => .error e
          | .ok others => .ok ((Read.pairOf key cell).toList ++ others)

/-- Whether examining some versions of a row calls for a hand-off. -/
def CallsFor (l : Lineage) (d : Directory) (key : Bytes) (cells : List Cell) (h : HandOff) : Prop :=
  ∃ c ∈ cells, ∃ f, l.fateOf d c = .ok f ∧ Visibility.handOffFor key c.writer f = some h

theorem CallsFor.mono {l : Lineage} {d : Directory} {key : Bytes} {cells cells' : List Cell} {h : HandOff}
    (hcalls : l.CallsFor d key cells h) (hsub : cells ⊆ cells') : l.CallsFor d key cells' h := by
  obtain ⟨c, hc, hf⟩ := hcalls
  exact ⟨c, hsub hc, hf⟩

/-- Where writers can be resolved, a row's value is that of the first visible version. -/
theorem firstSeen_map {l : Lineage} {d : Directory} {cells : List Cell} (h : l.Resolves d cells)
    (key : Bytes) :
    (l.firstSeen d cells).map (Read.pairOf key) =
      .ok (Read.pairOf key (cells.filter (l.sees d)).head?) := by
  induction cells with
  | nil => rfl
  | cons c rest ih =>
      obtain ⟨f, hfate⟩ := h c List.mem_cons_self
      have hsees : l.sees d c = f.isVisibleTo l.view := by simp [sees, hfate]
      simp only [firstSeen, hfate, List.filter_cons, hsees]
      cases f.isVisibleTo l.view with
      | false => exact ih fun x hx => h x (List.mem_cons_of_mem _ hx)
      | true =>
          cases hvalue : c.value with
          | none => simp [Except.map, Read.pairOf, Cell.isTombstone, hvalue]
          | some value => simp [Except.map, Read.pairOf, Cell.isTombstone, hvalue]

theorem seenRows_eq {l : Lineage} {d : Directory} {found : List (Bytes × List Cell)}
    (h : ∀ row ∈ found, l.Resolves d row.2) :
    l.seenRows d found =
      .ok (found.filterMap fun row => Read.pairOf row.1 (row.2.filter (l.sees d)).head?) := by
  induction found with
  | nil => rfl
  | cons row rest ih =>
      obtain ⟨key, versions⟩ := row
      have hrow := firstSeen_map (h _ List.mem_cons_self) key
      have hrest := ih fun row hrow => h row (List.mem_cons_of_mem _ hrow)
      simp only [seenRows, hrest]
      cases hfirst : l.firstSeen d versions with
      | error e => simp [hfirst, Except.map] at hrow
      | ok cell =>
          rw [hfirst] at hrow
          have hpair := Except.ok.inj hrow
          simp only [hpair, List.filterMap_cons]
          cases Read.pairOf key (versions.filter (l.sees d)).head? with
          | none => rfl
          | some pair => rfl

end Lineage

/-- A view whose memory agrees with the records. -/
def Visibility.Remembers (d : Directory) (v : Visibility) : Prop :=
  ∀ {writer : TxnId} {f : Fate}, v.memory[writer]? = some f →
    v.lineage.resolveWriter d writer = .ok f

/-- A view whose memory agrees with the records and whose hand-offs are justified. -/
structure Visibility.Faithful (d : Directory) (v : Visibility) : Prop where
  -- What is remembered is what the records say.
  memory : ∀ {writer : TxnId} {f : Fate}, v.memory[writer]? = some f →
    v.lineage.resolveWriter d writer = .ok f
  -- What is left for the sweeper is justified.
  handOffs : ∀ h ∈ v.outbox.handOffs, h.Justified d

namespace Visibility

variable {d : Directory}

/-- A view that has just been loaded has nothing to be wrong about. -/
theorem faithful_load {reader : View} {v : Visibility} (h : load d reader = .ok v) :
    Lineage.load d reader = .ok v.lineage ∧ v.Faithful d := by
  unfold load at h
  split at h
  · contradiction
  · rename_i l hlineage
    cases h
    exact ⟨hlineage, ⟨by simp, by simp⟩⟩

/-- The hand-off that a fate calls for is justified by the records that the fate was read off. -/
theorem justified_handOffFor (hd : d.Sound) {l : Lineage} {writer : TxnId} {f : Fate}
    (h : l.resolveWriter d writer = .ok f) (key : Bytes) :
    ∀ handOff ∈ (handOffFor key writer f).toList, handOff.Justified d := by
  have hholds := Lineage.holds_of_resolveWriter hd h
  intro handOff hmem
  cases f with
  | rolledBack =>
      simp only [handOffFor, Option.toList_some, List.mem_singleton] at hmem
      subst hmem
      exact hholds
  | committed commit via =>
      simp only [handOffFor, Option.toList_some, List.mem_singleton] at hmem
      subst hmem
      exact hholds
  | own => simp [handOffFor] at hmem
  | committedInto => simp [handOffFor] at hmem
  | active => simp [handOffFor] at hmem

/-- Learning a fate gives what the records say, and leaves nothing for the sweeper. -/
theorem learn_spec {v : Visibility} (hv : v.Remembers d) (writer : TxnId) :
    (v.learn d writer).1 = v.lineage.resolveWriter d writer ∧
      (v.learn d writer).2.Remembers d ∧ (v.learn d writer).2.lineage = v.lineage ∧
      (v.learn d writer).2.outbox.handOffs = v.outbox.handOffs := by
  unfold learn
  cases hmemory : v.memory[writer]? with
  | some f => exact ⟨(hv hmemory).symm, hv, rfl, rfl⟩
  | none =>
      cases hresolve : v.lineage.resolveWriter d writer with
      | error e => exact ⟨rfl, hv, rfl, rfl⟩
      | ok f =>
          refine ⟨rfl, fun {other g} hother => ?_, rfl, rfl⟩
          rw [Std.ExtTreeMap.getElem?_insert] at hother
          split at hother
          · rename_i hsame
            cases hother
            rw [← Std.LawfulEqCmp.eq_of_compare hsame]
            exact hresolve
          · exact hv hother

/-- **The memory does not change a fate.** -/
theorem fate_of_remembers {v : Visibility} (hv : v.Remembers d) (key : Bytes) (cell : Cell) :
    (v.fate d key cell).1 = v.lineage.fateOf d cell ∧
      (v.fate d key cell).2.Remembers d ∧ (v.fate d key cell).2.lineage = v.lineage := by
  have hfateOf : v.lineage.fateOf d cell = match v.cachedCommit cell with
      | some commit => .ok (.committed commit false)
      | none => v.lineage.resolveWriter d cell.writer := rfl
  cases hcached : v.cachedCommit cell with
  | some commit =>
      simp only [hfateOf, fate, hcached]
      exact ⟨trivial, hv, trivial⟩
  | none =>
      obtain ⟨hanswer, hremembers, hlineage, -⟩ := learn_spec hv cell.writer
      simp only [hfateOf, fate, hcached, ← hanswer]
      cases hlearn : v.learn d cell.writer with
      | mk answer v' =>
          rw [hlearn] at hremembers hlineage
          cases answer with
          | error e => exact ⟨rfl, hremembers, hlineage⟩
          | ok f => exact ⟨rfl, hremembers, hlineage⟩

/-- What is handed over for a cell is justified too, by the records that its fate is read off. -/
theorem fate_spec (hd : d.Sound) {v : Visibility} (hv : v.Faithful d) (key : Bytes) (cell : Cell) :
    (v.fate d key cell).1 = v.lineage.fateOf d cell ∧
      (v.fate d key cell).2.Faithful d ∧ (v.fate d key cell).2.lineage = v.lineage := by
  obtain ⟨hanswer, hremembers, hlineage⟩ := fate_of_remembers hv.memory key cell
  refine ⟨hanswer, ⟨hremembers, ?_⟩, hlineage⟩
  unfold fate
  cases v.cachedCommit cell with
  | some commit => exact hv.handOffs
  | none =>
      obtain ⟨hlearnt, -, -, hkept⟩ := learn_spec hv.memory cell.writer
      cases hlearn : v.learn d cell.writer with
      | mk answer v' =>
          rw [hlearn] at hlearnt hkept
          have hold : ∀ h ∈ v'.outbox.handOffs, h.Justified d := hkept ▸ hv.handOffs
          cases answer with
          | error e => exact hold
          | ok f =>
              intro h hmem
              rcases List.mem_append.1 hmem with hbefore | hnew
              · exact hold h hbefore
              · exact justified_handOffFor hd hlearnt.symm key h hnew

/-- What is handed over for a cell is what its fate calls for. -/
theorem handOffs_fate {v : Visibility} (hv : v.Remembers d) (key : Bytes) (cell : Cell) :
    ∀ h ∈ (v.fate d key cell).2.outbox.handOffs,
      h ∈ v.outbox.handOffs ∨ v.lineage.CallsFor d key [cell] h := by
  obtain ⟨hanswer, -, -⟩ := fate_of_remembers hv key cell
  have hlearnt := (learn_spec hv cell.writer).2.2.2
  unfold fate at hanswer ⊢
  cases hcached : v.cachedCommit cell with
  | some commit => exact fun h hh => .inl hh
  | none =>
      rw [hcached] at hanswer
      cases hlearn : v.learn d cell.writer with
      | mk answer v' =>
          rw [hlearn] at hanswer hlearnt
          cases answer with
          | error e => exact fun h hh => .inl (hlearnt ▸ hh)
          | ok f =>
              intro h hh
              rcases List.mem_append.1 hh with hbefore | hnew
              · exact .inl (hlearnt ▸ hbefore)
              · exact .inr ⟨cell, List.mem_singleton_self cell, f, hanswer.symm, Option.mem_toList.1 hnew⟩

/-- **The memory does not change a row value**, and what is handed over is what the versions call for. -/
theorem filterRow_of_remembers {v : Visibility} (hv : v.Remembers d) (key : Bytes) (cells : List Cell) :
    (v.filterRow d key cells).1 = v.lineage.firstSeen d cells ∧
      (v.filterRow d key cells).2.Remembers d ∧
      (v.filterRow d key cells).2.lineage = v.lineage ∧
      ∀ h ∈ (v.filterRow d key cells).2.outbox.handOffs,
        h ∈ v.outbox.handOffs ∨ v.lineage.CallsFor d key cells h := by
  induction cells generalizing v with
  | nil => exact ⟨rfl, hv, rfl, fun h hh => .inl hh⟩
  | cons cell rest ih =>
      obtain ⟨hanswer, hremembers, hlineage⟩ := fate_of_remembers hv key cell
      have hfirst : ∀ h ∈ (v.fate d key cell).2.outbox.handOffs,
          h ∈ v.outbox.handOffs ∨ v.lineage.CallsFor d key (cell :: rest) h := fun h hh =>
        (handOffs_fate hv key cell h hh).imp id fun hcalls =>
          hcalls.mono (List.cons_subset_cons cell (List.nil_subset rest))
      simp only [filterRow, isVisible, Lineage.firstSeen, ← hanswer]
      cases hfate : v.fate d key cell with
      | mk answer v' =>
          rw [hfate] at hremembers hlineage hfirst
          dsimp only at hremembers hlineage hfirst
          cases answer with
          | error e => exact ⟨rfl, hremembers, hlineage, hfirst⟩
          | ok f =>
              obtain ⟨hrest, hremembers', hlineage', hhandOffs⟩ := ih hremembers
              rw [hlineage] at hrest hlineage' hhandOffs
              simp only [reader, hlineage]
              cases f.isVisibleTo v.lineage.view with
              | true => exact ⟨rfl, hremembers, hlineage, hfirst⟩
              | false =>
                  refine ⟨hrest, hremembers', hlineage', fun h hh => ?_⟩
                  rcases hhandOffs h hh with hbefore | hcalls
                  · exact hfirst h hbefore
                  · exact .inr (hcalls.mono (List.subset_cons_self cell rest))

end Visibility

namespace Read

variable {d : Directory}

theorem rows_of_remembers {v : Visibility} (hv : v.Remembers d) (found : List (Bytes × List Cell)) :
    (rows d v found).1 = v.lineage.seenRows d found ∧
      ∀ h ∈ (rows d v found).2.outbox.handOffs,
        h ∈ v.outbox.handOffs ∨ ∃ row ∈ found, v.lineage.CallsFor d row.1 row.2 h := by
  induction found generalizing v with
  | nil => exact ⟨rfl, fun h hh => .inl hh⟩
  | cons row rest ih =>
      obtain ⟨key, versions⟩ := row
      obtain ⟨hanswer, hremembers, hlineage, hhandOffs⟩ :=
        Visibility.filterRow_of_remembers hv key versions
      have hfirst : ∀ h ∈ (v.filterRow d key versions).2.outbox.handOffs, h ∈ v.outbox.handOffs ∨
          ∃ row ∈ (key, versions) :: rest, v.lineage.CallsFor d row.1 row.2 h := fun h hh =>
        (hhandOffs h hh).imp id fun hcalls => ⟨_, List.mem_cons_self, hcalls⟩
      simp only [rows, Lineage.seenRows, ← hanswer]
      cases hfiltered : v.filterRow d key versions with
      | mk answer v' =>
          rw [hfiltered] at hremembers hlineage hfirst
          cases answer with
          | error e => exact ⟨rfl, hfirst⟩
          | ok cell =>
              obtain ⟨hrest, hothers⟩ := ih hremembers
              rw [hlineage] at hrest hothers
              have hall : ∀ h ∈ (rows d v' rest).2.outbox.handOffs, h ∈ v.outbox.handOffs ∨
                  ∃ row ∈ (key, versions) :: rest, v.lineage.CallsFor d row.1 row.2 h := by
                intro h hh
                rcases hothers h hh with hbefore | ⟨row, hrow, hcalls⟩
                · exact hfirst h hbefore
                · exact .inr ⟨row, List.mem_cons_of_mem _ hrow, hcalls⟩
              simp only [← hrest]
              cases hrows : rows d v' rest with
              | mk answer v'' =>
                  rw [hrows] at hall
                  cases answer with
                  | error e => exact ⟨rfl, hall⟩
                  | ok pairs => exact ⟨rfl, hall⟩

/-- **What a point read answers**, and what it leaves for the sweeper. -/
theorem get_spec {reader : View} {l : Lineage} (hload : Lineage.load d reader = .ok l)
    (cells : CellStore) (key : Bytes) :
    (get d reader cells key).1 = (l.firstSeen d (cells.get key .everything)).map (pairOf key) ∧
      ∀ h ∈ (get d reader cells key).2.handOffs, l.CallsFor d key (cells.get key .everything) h := by
  have hview : Visibility.load d reader = .ok { lineage := l } := by
    simp [Visibility.load, hload]
  obtain ⟨-, hfaithful⟩ := Visibility.faithful_load hview
  obtain ⟨hanswer, -, -, hhandOffs⟩ := Visibility.filterRow_of_remembers hfaithful.memory key
    (cells.get key .everything)
  simp only [List.not_mem_nil, false_or] at hhandOffs
  simp only [get, hview, Selection.widen, ← hanswer]
  cases hfiltered : Visibility.filterRow d { lineage := l } key (cells.get key .everything) with
  | mk answer v =>
      rw [hfiltered] at hhandOffs
      cases answer with
      | error e => exact ⟨rfl, hhandOffs⟩
      | ok cell => exact ⟨rfl, hhandOffs⟩

/-- What a scan answers over rows that it may fetch, and what it leaves for the sweeper. -/
theorem scan_spec {reader : View} {l : Lineage} (hload : Lineage.load d reader = .ok l)
    {cells : CellStore} {range : KeyRange} {found : List (Bytes × List Cell)}
    (hfound : cells.scan? range .everything = some found) :
    (scan d reader cells range).1 = (l.seenRows d found).mapError .txn ∧
      ∀ h ∈ (scan d reader cells range).2.handOffs, ∃ row ∈ found, l.CallsFor d row.1 row.2 h := by
  have hview : Visibility.load d reader = .ok { lineage := l } := by
    simp [Visibility.load, hload]
  obtain ⟨-, hfaithful⟩ := Visibility.faithful_load hview
  obtain ⟨hanswer, hhandOffs⟩ := rows_of_remembers hfaithful.memory found
  simp only [List.not_mem_nil, false_or] at hhandOffs
  simp only [scan, hview, Selection.widen, hfound, ← hanswer]
  cases hrows : rows d { lineage := l } found with
  | mk answer v =>
      rw [hrows] at hhandOffs
      cases answer with
      | error e => exact ⟨rfl, hhandOffs⟩
      | ok pairs => exact ⟨rfl, hhandOffs⟩

/-- What a point read answers where all writers can be resolved: the first visible version. -/
theorem get_of_resolvable {reader : View} {l : Lineage} (hload : Lineage.load d reader = .ok l)
    {cells : CellStore} {key : Bytes} (h : l.Resolves d (cells.get key .everything)) :
    (get d reader cells key).1 =
      .ok (pairOf key ((cells.get key .everything).filter (l.sees d)).head?) := by
  rw [(get_spec hload cells key).1, Lineage.firstSeen_map h key]

theorem scan_of_resolvable {reader : View} {l : Lineage} (hload : Lineage.load d reader = .ok l)
    {cells : CellStore} {range : KeyRange} {found : List (Bytes × List Cell)}
    (hfound : cells.scan? range .everything = some found) (h : ∀ row ∈ found, l.Resolves d row.2) :
    (scan d reader cells range).1 =
      .ok (found.filterMap fun row => pairOf row.1 (row.2.filter (l.sees d)).head?) := by
  rw [(scan_spec hload hfound).1, Lineage.seenRows_eq h]
  rfl

end Read

end Multiversion
