import Mathlib.Data.List.Nodup

/-!
# Marker records in a constant pool

The class file parser takes an integer constant with a magic value for the beginning of a table
that runs to the end of the pool: each record is an integer, the identifier of the marker, and a
text, its predicates. The checks of the constant pool know nothing of the table.
-/
namespace MarkerRecords
open List Option

/-! ### The constant pool -/

inductive RefKind
  | field
  | method
  | interfaceMethod
  deriving DecidableEq

/-- An entry as the file has it, or with the symbol in place of its index after the checks. -/
inductive Entry
  | invalid
  | classIndex (name : Nat)
  | unresolvedClass (name : String)
  | ref (kind : RefKind) (klass nameAndType : Nat)
  | stringIndex (text : Nat)
  | unresolvedString (text : String)
  | integer (value : BitVec 32)
  | float (bits : BitVec 32)
  | long (bits : BitVec 64)
  | double (bits : BitVec 64)
  | nameAndType (name signature : Nat)
  | utf8 (text : String)
  deriving DecidableEq

abbrev Pool := List Entry

/-- `_need_verify`, and which names the second pass accepts. -/
structure Verifier where
  needVerify : Bool
  className : String → Bool
  member : RefKind → String → String → Bool

/-- `MARKER_PRED_MAGIC`. -/
def magic : BitVec 32 := 0xBABECAFE

/-- `parse_constant_pool_entries` from the next free index on, with `pred_idx_base`. -/
def parseEntries (length : Nat) : List Entry → Pool → Nat → Option (Pool × Nat)
  | [], cp, base => if length ≤ cp.length then some (cp, base) else none
  | entry :: rest, cp, base =>
    if length ≤ cp.length then some (cp, base)
    else
      match entry with
      | .long _ | .double _ =>
        -- the entry takes two indices
        if cp.length + 1 < length then parseEntries length rest (cp ++ [entry, .invalid]) base
        else none
      | .integer value =>
        parseEntries length rest (cp ++ [entry]) (if value = magic then cp.length else base)
      | .invalid | .unresolvedClass _ | .unresolvedString _ => none
      | _ => parseEntries length rest (cp ++ [entry]) base

def utf8At (cp : Pool) (i : Nat) : Option String :=
  match cp[i]? with
  | some (.utf8 text) => some text
  | _ => none

def nameAndTypeAt (cp : Pool) (i : Nat) : Option (Nat × Nat) :=
  match cp[i]? with
  | some (.nameAndType name signature) => some (name, signature)
  | _ => none

def isKlassReference (cp : Pool) (i : Nat) : Bool :=
  match cp[i]? with
  | some (.classIndex _) | some (.unresolvedClass _) => true
  | _ => false

/-- The first verification pass for one entry. Without verification the source reads the text of a
class or a string from any entry; what it gets from one that is no text is undefined, and the pool
is rejected here. -/
def checkReferences (v : Verifier) (cp : Pool) : Entry → Bool
  | .classIndex text | .stringIndex text => (utf8At cp text).isSome
  | .ref _ klass nameAndType =>
    !v.needVerify || isKlassReference cp klass && (nameAndTypeAt cp nameAndType).isSome
  | .nameAndType name signature =>
    !v.needVerify || (utf8At cp name).isSome && (utf8At cp signature).isSome
  | _ => true

/-- What the first pass puts in place of an entry. -/
def fixup (cp : Pool) : Entry → Entry
  | .classIndex name => (utf8At cp name).elim (.classIndex name) .unresolvedClass
  | .stringIndex text => (utf8At cp text).elim (.stringIndex text) .unresolvedString
  | entry => entry

/-- The second verification pass for one entry. -/
def legalNames (v : Verifier) (cp : Pool) : Entry → Bool
  | .unresolvedClass name => v.className name
  | .ref kind _ nameAndType =>
    ((nameAndTypeAt cp nameAndType).bind fun (name, signature) =>
      (utf8At cp name).bind fun name => (utf8At cp signature).map (v.member kind name)).getD false
  | _ => true

/-- The pool and `pred_idx_base`; `none` if the class file is rejected. -/
def parseConstantPool (v : Verifier) (length : Nat) (file : List Entry) : Option (Pool × Nat) :=
  if length < 1 then none
  else
    (parseEntries length file [.invalid] 0).bind fun (cp, base) =>
      let checked := cp.map (fixup cp)
      if cp.all (checkReferences v cp) && (!v.needVerify || checked.all (legalNames v checked)) then
        some (checked, base)
      else none

/-! ### The records -/

structure Marker where
  mid : BitVec 16
  preds : String

/-- `none` behind the pool and at an entry that is no integer. -/
def intAt (cp : Pool) (i : Nat) : Option (BitVec 32) :=
  match cp[i]? with
  | some (.integer value) => some value
  | _ => none

/-- The text of a symbol or of a string. -/
def symbolAt (cp : Pool) (i : Nat) : Option String :=
  match cp[i]? with
  | some (.utf8 text) | some (.unresolvedString text) => some text
  | _ => none

/-- The loop of `parse_marker_descs`; `none` if it reads what is not there. -/
def markerLoop (cp : Pool) : Nat → Nat → Option (List Marker)
  | 0, _ => none
  | fuel + 1, i =>
    if i < cp.length then
      (intAt cp i).bind fun value =>
        (symbolAt cp (i + 1)).bind fun preds =>
          (markerLoop cp fuel (i + 2)).map (⟨value.setWidth 16, preds⟩ :: ·)
    else some []

def parseMarkerDescs (cp : Pool) (base : Nat) : Option (List Marker) :=
  if base = 0 then some [] else markerLoop cp (cp.length + 1) (base + 1)

/-- From index `i` on, integers and texts take turns to the end of the pool. -/
def RecordsFrom (cp : Pool) (i : Nat) : Prop :=
  ∀ k, i + 2 * k < cp.length → (intAt cp (i + 2 * k)).isSome ∧ (symbolAt cp (i + 2 * k + 1)).isSome

/-- What is behind a magic integer is a table of markers with different lower halves. -/
structure MarkersFormed (cp : Pool) (base : Nat) : Prop where
  records : RecordsFrom cp (base + 1)
  distinct : ∀ j k m n, intAt cp (base + 1 + 2 * j) = some m → intAt cp (base + 1 + 2 * k) = some n →
    m.setWidth 16 = n.setWidth 16 → j = k

variable {cp : Pool} {i fuel : Nat}

theorem intAt_of_le (beyond : cp.length ≤ i) : intAt cp i = none := by
  rw [intAt, getElem?_eq_none beyond]

theorem recordsFrom_step (here : i < cp.length) : RecordsFrom cp i ↔
    ((intAt cp i).isSome ∧ (symbolAt cp (i + 1)).isSome) ∧ RecordsFrom cp (i + 2) := by
  have shift : ∀ k, i + 2 + 2 * k = i + 2 * (k + 1) := by omega
  constructor
  · intro records
    refine ⟨records 0 here, fun k inside => ?_⟩
    rw [shift] at inside ⊢
    exact records (k + 1) inside
  · rintro ⟨first, records⟩ k inside
    cases k with
    | zero => exact first
    | succ k =>
      rw [← shift] at inside ⊢
      exact records k inside

/-- The loop ends with the markers of all records, or where there is no record. -/
theorem markerLoop_spec (enough : cp.length ≤ i + 2 * fuel) :
    match markerLoop cp (fuel + 1) i with
    | none => ¬RecordsFrom cp i
    | some markers => RecordsFrom cp i ∧
        ∀ k, (markers.map Marker.mid)[k]? = (intAt cp (i + 2 * k)).map (BitVec.setWidth 16) := by
  induction fuel generalizing i with
  | zero =>
    have beyond : ¬i < cp.length := by omega
    rw [markerLoop, if_neg beyond]
    refine ⟨fun k inside => by omega, fun k => ?_⟩
    rw [intAt_of_le (by omega)]
    rfl
  | succ fuel ih =>
    rw [markerLoop]
    split_ifs with here
    · have rest := ih (i := i + 2) (by omega)
      rw [recordsFrom_step here]
      cases number : intAt cp i with
      | none => simp
      | some value =>
        cases text : symbolAt cp (i + 1) with
        | none => simp
        | some preds =>
          cases markers : markerLoop cp (fuel + 1) (i + 2) with
          | none => simpa [markers] using rest
          | some markers' =>
            rw [markers] at rest
            refine ⟨⟨⟨rfl, rfl⟩, rest.1⟩, fun k => ?_⟩
            cases k with
            | zero => simp [number]
            | succ k =>
              rw [show i + 2 * (k + 1) = i + 2 + 2 * k by omega, ← rest.2 k]
              rfl
    · refine ⟨fun k inside => by omega, fun k => ?_⟩
      rw [intAt_of_le (by omega)]
      rfl

/-- In every pool, and so in every one that passes the checks, records are read from entries that
have the right tags, with different identifiers, exactly if the table behind the base is well
formed. -/
theorem markers_read_iff (cp : Pool) (base : Nat) :
    (∃ markers, parseMarkerDescs cp base = some markers ∧ (markers.map Marker.mid).Nodup) ↔
      (base ≠ 0 → MarkersFormed cp base) := by
  unfold parseMarkerDescs
  split_ifs with absent
  · simp [absent]
  · have enough : cp.length ≤ base + 1 + 2 * cp.length := by omega
    have spec := markerLoop_spec enough
    cases read : markerLoop cp (cp.length + 1) (base + 1) with
    | none =>
      rw [read] at spec
      simpa [absent] using fun formed : MarkersFormed cp base => spec formed.records
    | some markers =>
      rw [read] at spec
      obtain ⟨records, mids⟩ := spec
      constructor
      · rintro ⟨_, ⟨⟩, nodup⟩ -
        refine ⟨records, fun j k m n first second same => ?_⟩
        have here := mids j
        rw [first] at here
        apply (getElem?_inj (List.getElem?_eq_some_iff.mp here).1 nodup).mp
        rw [mids, mids, first, second, map_some, map_some, same]
      · intro formed
        refine ⟨markers, rfl, nodup_iff_getElem?_ne_getElem?.mpr fun j k less inside same => ?_⟩
        rw [getElem?_eq_getElem inside, mids] at same
        obtain ⟨m, first, half⟩ := map_eq_some_iff.mp same
        have other := mids k
        rw [getElem?_eq_getElem inside] at other
        obtain ⟨n, second, half'⟩ := map_eq_some_iff.mp other.symm
        have := (formed absent).distinct j k m n first second (half.trans half'.symm)
        omega

private def lenient : Verifier := ⟨false, fun _ => true, fun _ _ _ => true⟩

theorem two_markers_read : ∃ cp, parseConstantPool lenient 6
      [.integer magic, .integer 7, .utf8 "appCls", .integer 8, .utf8 "appMd"] = some (cp, 1) ∧
    MarkersFormed cp 1 :=
  ⟨_, rfl, (markers_read_iff _ 1).mp ⟨_, rfl, by decide⟩ (by decide)⟩

/-- A table that ends with an identifier is read past the end of the pool, and identifiers that
agree in their lower halves are taken for the same marker. -/
theorem records_misread :
    (∃ cp, parseConstantPool lenient 3 [.integer magic, .integer 7] = some (cp, 1) ∧
      parseMarkerDescs cp 1 = none) ∧
    ∃ cp, parseConstantPool lenient 6 [.integer magic, .integer 1, .utf8 "a", .integer 0x10001,
        .utf8 "b"] = some (cp, 1) ∧
      parseMarkerDescs cp 1 = some [⟨1, "a"⟩, ⟨1, "b"⟩] :=
  ⟨⟨_, rfl, rfl⟩, _, rfl, rfl⟩

end MarkerRecords
