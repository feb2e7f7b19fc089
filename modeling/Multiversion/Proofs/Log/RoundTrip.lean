import Multiversion.Proofs.Cbor.Reads

/-!
# The round trip of log records

Every log record is read back from its payload, whatever follows the payload.

* `View.Storable` — transaction records whose list of tables fits the length fields;
* `View.reads_encode` — a storable transaction record is read back;
* `LogRecord.ofPayload_payload` — so is every log record whose payload fits a frame.
-/

namespace Multiversion

open Cbor (Reads Reader)

namespace View

/-- A transaction record whose texts and lists have lengths below the limit of a length field. -/
structure Storable (v : View) : Prop where
  tables : v.tables.length < 18446744073709551616
  names : ∀ s ∈ v.tables, (Bytes.ofText s).length < 18446744073709551616

/-- Takes over a field of a transaction record. -/
def Draft.store (v : View) (d : Draft) : Field → Draft
  | .id => { d with id := some v.id }
  | .begin => { d with begin := some v.begin }
  | .parent => { d with parent := some v.parent }
  | .commit => { d with commit := some v.commit }
  | .globalCommit => { d with globalCommit := some v.globalCommit }
  | .isolation => { d with isolation := some v.isolation }
  | .additive => { d with additive := some v.additive }
  | .phase => { d with phase := some v.phase }
  | .tables => { d with tables := some v.tables }

theorem Draft.has_store (v : View) (d : Draft) (f g : Field) :
    (d.store v f).has g = (decide (f = g) || d.has g) := by
  cases f <;> cases g <;> rfl

theorem Draft.finish_store (v : View) : (Field.all.foldl (Draft.store v) {}).finish = some v := rfl

theorem reads_id (id : TxnId) : Reads readId (Cbor.unsigned id.val) id :=
  (Reads.unsigned id.val).map TxnId.mk

theorem reads_timestamp (ts : Timestamp) : Reads readTimestamp (Cbor.unsigned ts.val) ts :=
  (Reads.unsigned ts.val).map Timestamp.mk

theorem reads_parent (id : Option TxnId) :
    Reads (Reader.optional readId) (Cbor.optional (id.map (·.val))) id := by
  have hread := Reads.optional TxnId.mk (id.map (·.val))
  cases id <;> exact hread

theorem reads_stamp (ts : Option Timestamp) :
    Reads (Reader.optional readTimestamp) (Cbor.optional (ts.map (·.val))) ts := by
  have hread := Reads.optional Timestamp.mk (ts.map (·.val))
  cases ts <;> exact hread

theorem reads_field {v : View} (hv : v.Storable) (d : Draft) (f : Field) :
    Reads (readField d f) (v.encodeField f) (d.store v f) := by
  cases f with
  | id => exact (reads_id v.id).then_pure (.pure _)
  | begin => exact (reads_timestamp v.begin).then_pure (.pure _)
  | parent => exact (reads_parent v.parent).then_pure (.pure _)
  | commit => exact (reads_stamp v.commit).then_pure (.pure _)
  | globalCommit => exact (reads_stamp v.globalCommit).then_pure (.pure _)
  | isolation =>
      have hname : (Bytes.ofText v.isolation.name).length ≤ Reader.maxNameLength := by
        cases v.isolation <;> decide +kernel
      exact (Reads.variant hname (Isolation.ofName?_name _)).then_pure (.pure _)
  | additive => exact (Reads.bool v.additive).then_pure (.pure _)
  | phase =>
      have hname : (Bytes.ofText v.phase.name).length ≤ Reader.maxNameLength := by
        cases v.phase <;> decide +kernel
      exact (Reads.variant hname (Phase.ofName?_name _)).then_pure (.pure _)
  | tables => exact (Reads.texts hv.tables hv.names).then_pure (.pure _)

/-- Fields that are stored one after the other, and have not been read before, are read back. -/
theorem reads_fields {v : View} (hv : v.Storable) {fs : List Field} (hfs : fs.Nodup) {d : Draft}
    (hd : ∀ f ∈ fs, d.has f = false) :
    Reads (Reader.fields.counted readNamed fs.length d)
      (fs.flatMap fun f => Cbor.text f.name ++ v.encodeField f) (fs.foldl (Draft.store v) d) := by
  induction fs generalizing d with
  | nil => exact .pure d
  | cons f rest ih =>
      obtain ⟨hf, hrest⟩ := List.nodup_cons.1 hfs
      have hname : (Bytes.ofText f.name).length ≤ Reader.maxNameLength := by
        cases f <;> decide +kernel
      have hfield : Reads (readNamed d (Bytes.ofText f.name)) (v.encodeField f) (d.store v f) := by
        have hnew := hd f List.mem_cons_self
        rw [readNamed, Reads.decodeText_ofText, Option.bind_some, Field.ofName?_name]
        simp only [hnew, Bool.false_eq_true, if_false]
        exact reads_field hv d f
      have hstored : ∀ g ∈ rest, (d.store v f).has g = false := by
        intro g hg
        have hne : f ≠ g := fun hsame => hf (hsame ▸ hg)
        simp [Draft.has_store, hne, hd g (List.mem_cons_of_mem _ hg)]
      rw [List.flatMap_cons, List.append_assoc]
      exact (Reads.name hname).bind (hfield.bind (ih hrest hstored))

/-- **A transaction record is read back.** -/
theorem reads_encode {v : View} (hv : v.Storable) : Reads View.read v.encode v := by
  have hhead : Reads Reader.untagged (Cbor.map Field.all.length) (.map (some Field.all.length)) :=
    Reads.untagged (Reads.head (by omega) (by decide) rfl) (by simp [Cbor.map, Cbor.Head.encode_eq])
      (by simp)
  have hall : Field.all.Nodup := by decide
  have hempty : ∀ f ∈ Field.all, (Draft.has {} f) = false := by
    intro f _
    cases f <;> rfl
  have hfields : Reads (Reader.fields readNamed {}) v.encode (Field.all.foldl (Draft.store v) {}) :=
    hhead.bind (reads_fields hv hall hempty)
  refine hfields.then_pure ?_
  rw [Draft.finish_store]
  exact .pure v

theorem length_le_flatMap {s : String} {ss : List String} (hs : s ∈ ss) :
    (Bytes.ofText s).length ≤ (ss.flatMap Cbor.text).length := by
  obtain ⟨before, after, rfl⟩ := List.append_of_mem hs
  simp only [List.flatMap_append, List.flatMap_cons, List.length_append, Cbor.text]
  omega

theorem length_le_length_flatMap (ss : List String) :
    ss.length ≤ (ss.flatMap Cbor.text).length := by
  induction ss with
  | nil => exact Nat.le_refl 0
  | cons s rest ih =>
      simp only [List.flatMap_cons, List.length_append, Cbor.text, Cbor.Head.encode_eq,
        List.length_cons]
      omega

/-- A transaction record that is stored in few enough bytes is storable. -/
theorem storable_of_length {v : View} (h : v.encode.length < 18446744073709551616) : v.Storable := by
  have hle : (v.tables.flatMap Cbor.text).length ≤ v.encode.length := by
    simp only [encode, Field.all, List.flatMap_cons, List.length_append, encodeField]
    omega
  refine ⟨?_, fun s hs => ?_⟩
  · have hlength := length_le_length_flatMap v.tables
    omega
  · have hlength := length_le_flatMap hs
    omega

end View

namespace LogRecord

/-- **A log record is read back.** -/
theorem reads_payload {r : LogRecord} (h : r.payload.length < 4294967296) :
    Reads (LogRecord.read r.type) r.payload r := by
  cases r with
  | begin view aliveAt =>
      have hlength : view.encode.length < 18446744073709551616 := by
        simp only [payload, List.length_append] at h
        omega
      have hview := View.reads_encode (View.storable_of_length hlength)
      exact (hview.pair (Reads.unsigned aliveAt)).then_pure (.pure _)
  | commit id ts => exact ((View.reads_id id).pair (View.reads_timestamp ts)).then_pure (.pure _)
  | rollback id => exact (View.reads_id id).then_pure (.pure _)
  | globalCommit id ts =>
      exact ((View.reads_id id).pair (View.reads_timestamp ts)).then_pure (.pure _)
  | keepAlive id aliveAt => exact ((View.reads_id id).pair (Reads.unsigned aliveAt)).then_pure (.pure _)

/-- A log record is what its payload holds. -/
theorem ofPayload_payload {r : LogRecord} (h : r.payload.length < 4294967296) :
    ofPayload r.type r.payload = .ok r := by
  have hread := reads_payload h []
  rw [List.append_nil] at hread
  rw [ofPayload, ofPayload?, hread]
  rfl

end LogRecord

end Multiversion
