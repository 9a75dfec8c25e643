import Aqueduct.Lib.Bytes
import Aqueduct.Lib.Framing

/-!
Strings of entries `[type:1][length:1][value]`. Every byte string is, in one
way only, a list of whole entries and a rest that holds none
(`encode_entries_rest`), so what a scan does on arbitrary bytes is told by
`scan_induction`: what it does on such a rest, and on an entry in front.
-/

namespace Tlv

open ByteStr Framing

structure Entry where
  typ : UInt8
  value : Bytes
  fits : value.length < 256
  deriving DecidableEq

def Entry.encode (e : Entry) : Bytes := e.typ :: UInt8.ofNat e.value.length :: e.value

def encode (es : List Entry) : Bytes := (es.map Entry.encode).flatten

@[simp] theorem encode_nil : encode [] = [] := rfl

@[simp] theorem encode_cons (e : Entry) (es : List Entry) :
    encode (e :: es) = e.encode ++ encode es := rfl

theorem encode_append (es es' : List Entry) : encode (es ++ es') = encode es ++ encode es' := by
  rw [encode, List.map_append, List.flatten_append]
  rfl

@[simp] theorem Entry.encode_length (e : Entry) : e.encode.length = 2 + e.value.length := by
  simp only [Entry.encode, List.length_cons]
  omega

theorem Entry.lengthByte (e : Entry) : (UInt8.ofNat e.value.length).toNat = e.value.length := by
  rw [UInt8.toNat_ofNat']
  exact Nat.mod_eq_of_lt e.fits

theorem encode_eq_nil_iff {es : List Entry} : encode es = [] ↔ es = [] := by
  constructor
  · intro h
    cases es with
    | nil => rfl
    | cons e es => cases h
  · rintro rfl
    rfl

/-! ## Cutting entries off -/

theorem take_length_lt (l : UInt8) (rest : Bytes) : (rest.take l.toNat).length < 256 :=
  Nat.lt_of_le_of_lt (List.length_take_le _ _) l.toNat_lt

/-- The entry that two bytes and what they announce spell. -/
theorem eq_encode_append {typ len : UInt8} {more : Bytes} (h : len.toNat ≤ more.length) :
    typ :: len :: more = Entry.encode ⟨typ, more.take len.toNat, take_length_lt len more⟩ ++
      more.drop len.toNat := by
  simp only [Entry.encode, List.length_take_of_le h, UInt8.ofNat_toNat, List.cons_append,
    List.take_append_drop]

def cutEntry : Bytes → Verdict Entry Empty
  | typ :: len :: rest =>
    if len.toNat ≤ rest.length then
      .item ⟨typ, rest.take len.toNat, take_length_lt len rest⟩ (2 + len.toNat)
    else .incomplete
  | _ => .incomplete

theorem cutEntry_item {b : Bytes} {e : Entry} {n : Nat} (h : cutEntry b = .item e n) :
    n = e.encode.length ∧ ∃ rest, b = e.encode ++ rest := by
  unfold cutEntry at h
  split at h
  · next typ len rest =>
    split at h
    · next hle =>
      cases h
      refine ⟨?_, rest.drop len.toNat, eq_encode_append hle⟩
      rw [Entry.encode_length, List.length_take_of_le hle]
    · cases h
  · cases h

theorem cutEntry_encode (e : Entry) (rest : Bytes) :
    cutEntry (e.encode ++ rest) = .item e e.encode.length := by
  have hle : e.value.length ≤ (e.value ++ rest).length := by
    rw [List.length_append]
    omega
  show cutEntry (e.typ :: UInt8.ofNat e.value.length :: (e.value ++ rest)) = _
  simp only [cutEntry, e.lengthByte, if_pos hle, List.take_left, e.encode_length]

def cutter : Cutter UInt8 Entry Empty where
  next := cutEntry
  next_nil := rfl
  item_length := fun h => by
    obtain ⟨rfl, rest, rfl⟩ := cutEntry_item h
    rw [List.length_append, Entry.encode_length]
    omega
  item_append := fun h rest => by
    obtain ⟨rfl, more, rfl⟩ := cutEntry_item h
    rw [List.append_assoc, cutEntry_encode]
  stop_append := fun {_ e} _ => e.elim

/-- The whole entries at the front of a string. -/
def entries (b : Bytes) : List Entry := (cutter.drain b).1

/-- What is left behind them. -/
def rest (b : Bytes) : Bytes :=
  match (cutter.drain b).2 with
  | .ok r => r
  | .error e => e.elim

/-- No whole entry is left: fewer than two bytes, or a length past the end. -/
def Cut (b : Bytes) : Prop := b.length < 2 + (b.getD 1 0).toNat

instance (b : Bytes) : Decidable (Cut b) := inferInstanceAs (Decidable (_ < _))

theorem cut_iff (b : Bytes) : Cut b ↔ cutEntry b = .incomplete := by
  unfold Cut cutEntry
  split
  · next typ len more =>
    have hlen : (typ :: len :: more).getD 1 0 = len := rfl
    rw [hlen]
    simp only [List.length_cons]
    constructor
    · intro h
      rw [if_neg (by omega)]
    · intro h
      by_contra hge
      rw [if_pos (by omega)] at h
      cases h
  · next hshort =>
    refine ⟨fun _ => rfl, fun _ => ?_⟩
    rcases b with _ | ⟨x, _ | ⟨y, more⟩⟩
    · decide
    · exact (by decide : (1 : Nat) < 2)
    · exact absurd rfl (hshort x y more)

theorem cut_nil : Cut [] := by decide

theorem entries_cut {b : Bytes} (h : Cut b) : entries b = [] := by
  rw [entries, Cutter.drain_incomplete ((cut_iff b).mp h)]

theorem rest_cut {b : Bytes} (h : Cut b) : rest b = b := by
  rw [rest, Cutter.drain_incomplete ((cut_iff b).mp h)]

theorem drain_encode (e : Entry) (b : Bytes) :
    cutter.drain (e.encode ++ b) = (e :: (cutter.drain b).1, (cutter.drain b).2) := by
  rw [Cutter.drain_item (cutEntry_encode e b), List.drop_left]

theorem entries_encode_append (e : Entry) (b : Bytes) :
    entries (e.encode ++ b) = e :: entries b := by
  rw [entries, drain_encode, entries]

theorem rest_encode_append (e : Entry) (b : Bytes) : rest (e.encode ++ b) = rest b := by
  rw [rest, drain_encode, rest]

/-- Induction over the entries at the front of arbitrary bytes. -/
theorem scan_induction {P : Bytes → Prop} (cut : ∀ b, Cut b → P b)
    (entry : ∀ e b, P b → P (Entry.encode e ++ b)) (b : Bytes) : P b := by
  induction hl : b.length using Nat.strongRecOn generalizing b with
  | ind k ih =>
    cases hn : cutEntry b with
    | incomplete => exact cut b ((cut_iff b).mpr hn)
    | stop e => exact e.elim
    | item e n =>
      obtain ⟨-, more, rfl⟩ := cutEntry_item hn
      refine entry e more (ih more.length ?_ more rfl)
      rw [List.length_append, e.encode_length] at hl
      omega

/-! ## Every string is entries and a rest -/

theorem encode_entries_rest (b : Bytes) : encode (entries b) ++ rest b = b := by
  induction b using scan_induction with
  | cut b h => rw [entries_cut h, rest_cut h, encode_nil, List.nil_append]
  | entry e b ih =>
    rw [entries_encode_append, rest_encode_append, encode_cons, List.append_assoc, ih]

theorem rest_isCut (b : Bytes) : Cut (rest b) := by
  induction b using scan_induction with
  | cut b h => rwa [rest_cut h]
  | entry e b ih => rwa [rest_encode_append]

theorem entries_append (es : List Entry) (b : Bytes) :
    entries (encode es ++ b) = es ++ entries b := by
  induction es with
  | nil => rfl
  | cons e es ih => rw [encode_cons, List.append_assoc, entries_encode_append, ih, List.cons_append]

theorem rest_append (es : List Entry) (b : Bytes) : rest (encode es ++ b) = rest b := by
  induction es with
  | nil => rfl
  | cons e es ih => rw [encode_cons, List.append_assoc, rest_encode_append, ih]

@[simp] theorem entries_encode (es : List Entry) : entries (encode es) = es := by
  have h := entries_append es []
  rwa [List.append_nil, entries_cut cut_nil, List.append_nil] at h

@[simp] theorem rest_encode (es : List Entry) : rest (encode es) = [] := by
  have h := rest_append es []
  rwa [List.append_nil, rest_cut cut_nil] at h

/-! ## Lookup and removal -/

/-- The value of the first entry of a type that has one. -/
def lookup (es : List Entry) (typ : UInt8) : Option Bytes :=
  (es.find? fun e => e.typ = typ ∧ e.value ≠ []).map (·.value)

def without (es : List Entry) (typ : UInt8) : List Entry := es.filter fun e => e.typ ≠ typ

@[simp] theorem lookup_nil (typ : UInt8) : lookup [] typ = none := rfl

theorem lookup_cons (e : Entry) (es : List Entry) (typ : UInt8) :
    lookup (e :: es) typ =
      if e.typ = typ ∧ e.value ≠ [] then some e.value else lookup es typ := by
  unfold lookup
  split
  · next h => rw [List.find?_cons_of_pos (by simpa using h), Option.map_some]
  · next h => rw [List.find?_cons_of_neg (by simpa using h)]

theorem lookup_append (es es' : List Entry) (typ : UInt8) :
    lookup (es ++ es') typ = (lookup es typ).or (lookup es' typ) := by
  rw [lookup, List.find?_append, lookup, lookup]
  cases es.find? fun e => e.typ = typ ∧ e.value ≠ [] <;> rfl

theorem without_cons (e : Entry) (es : List Entry) (typ : UInt8) :
    without (e :: es) typ = if e.typ ≠ typ then e :: without es typ else without es typ := by
  unfold without
  split
  · next h => rw [List.filter_cons_of_pos (by simpa using h)]
  · next h => rw [List.filter_cons_of_neg (by simpa using h)]

theorem without_append (es es' : List Entry) (typ : UInt8) :
    without (es ++ es') typ = without es typ ++ without es' typ := List.filter_append es es'

theorem encode_without_length_le (es : List Entry) (typ : UInt8) :
    (encode (without es typ)).length ≤ (encode es).length := by
  induction es with
  | nil => exact Nat.le_refl _
  | cons e es ih =>
    rw [without_cons]
    split
    · simp only [encode_cons, List.length_append]
      omega
    · rw [encode_cons, List.length_append]
      omega

theorem lookup_without_self (es : List Entry) (typ : UInt8) :
    lookup (without es typ) typ = none := by
  induction es with
  | nil => rfl
  | cons e es ih =>
    rw [without_cons]
    split
    · next h => rw [lookup_cons, if_neg fun hc => h hc.1, ih]
    · exact ih

theorem lookup_without_of_ne (es : List Entry) {typ typ' : UInt8} (h : typ ≠ typ') :
    lookup (without es typ') typ = lookup es typ := by
  induction es with
  | nil => rfl
  | cons e es ih =>
    rw [without_cons, lookup_cons]
    split
    · rw [lookup_cons, ih]
    · next hsame => rw [if_neg fun hc => hsame fun heq => h (hc.1.symm.trans heq), ih]

end Tlv
