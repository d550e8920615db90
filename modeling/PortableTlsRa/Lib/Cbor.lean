import PortableTlsRa.Lib.Bytes

/-!
# CBOR items and their serialisation

The data items of CBOR as a decoder hands them out: integers with the width they were encoded in, strings and
containers with their definite or indefinite length (of an indefinite string only that it is one).  `encode`
serialises the items of definite length and `load` decodes the first item of a byte string; an encoded item is
decoded to itself whatever follows it (`load_encode`).
-/

namespace Cbor

open CSem

inductive Width where
  | w8
  | w16
  | w32
  | w64
deriving DecidableEq

def Width.bytes : Width → Nat
  | .w8 => 1
  | .w16 => 2
  | .w32 => 4
  | .w64 => 8

inductive Item where
  | uint (width : Width) (value : Nat)
  | negint (width : Width) (value : Nat)
  | bytes (data : Bytes)
  | bytesIndefinite
  | text (data : Bytes)
  | textIndefinite
  | array (definite : Bool) (items : List Item)
  | map (definite : Bool) (pairs : List (Item × Item))
  | tag (value : Nat) (item : Item)
  | floatCtrl

namespace Item

def isString : Item → Bool
  | text _ | textIndefinite => true
  | _ => false

/-- The bytes of a string; a string of indefinite length has length 0. -/
def stringBytes : Item → Bytes
  | text data => data
  | _ => []

end Item

/-! ### Numbers and heads -/

/-- The last `k` bytes of a number, most significant first. -/
def bigEndian : Nat → Nat → Bytes
  | 0, _ => []
  | k + 1, n => bigEndian k (n / 256) ++ [UInt8.ofNat (n % 256)]

def ofBigEndian (b : Bytes) : Nat := b.foldl (fun n x => 256 * n + x.toNat) 0

theorem bigEndian_length (k n : Nat) : (bigEndian k n).length = k := by
  induction k generalizing n with
  | zero => rfl
  | succ k ih => simp [bigEndian, ih]

theorem ofBigEndian_bigEndian {k n : Nat} (h : n < 256 ^ k) : ofBigEndian (bigEndian k n) = n := by
  induction k generalizing n with
  | zero =>
    obtain rfl : n = 0 := by simpa using h
    rfl
  | succ k ih =>
    have hdiv : n / 256 < 256 ^ k := Nat.div_lt_of_lt_mul (by rwa [Nat.pow_succ, Nat.mul_comm] at h)
    have hprefix := ih hdiv
    unfold ofBigEndian at hprefix ⊢
    have hbyte : (UInt8.ofNat (n % 256)).toNat = n % 256 := by
      rw [UInt8.toNat_ofNat']
      omega
    rw [bigEndian, List.foldl_append, hprefix, List.foldl_cons, List.foldl_nil, hbyte]
    omega

/-- The additional information of a head whose argument has the given width. -/
def Width.info : Width → Nat
  | .w8 => 24
  | .w16 => 25
  | .w32 => 26
  | .w64 => 27

def putHead (major : Nat) (w : Width) (n : Nat) : Bytes :=
  if w = .w8 ∧ n ≤ 23 then [UInt8.ofNat (32 * major + n)]
  else UInt8.ofNat (32 * major + w.info) :: bigEndian w.bytes n

/-- The shortest width of a length. -/
def widthOf (n : Nat) : Width :=
  if n < 2 ^ 8 then .w8 else if n < 2 ^ 16 then .w16 else if n < 2 ^ 32 then .w32 else .w64

def getArgument (w : Width) (b : Bytes) : Option (Width × Nat × Bytes) :=
  if w.bytes ≤ b.length then some (w, ofBigEndian (b.take w.bytes), b.drop w.bytes) else none

/-- The major type, the width and the value of the argument, and the bytes after the head. -/
def getHead : Bytes → Option (Nat × Width × Nat × Bytes)
  | [] => none
  | b :: r =>
    let info := b.toNat % 32
    if info ≤ 23 then some (b.toNat / 32, .w8, info, r)
    else if info = 24 then (getArgument .w8 r).map ((b.toNat / 32, ·))
    else if info = 25 then (getArgument .w16 r).map ((b.toNat / 32, ·))
    else if info = 26 then (getArgument .w32 r).map ((b.toNat / 32, ·))
    else if info = 27 then (getArgument .w64 r).map ((b.toNat / 32, ·))
    else none

theorem getArgument_bigEndian {w : Width} {n : Nat} {r : Bytes} (h : n < 256 ^ w.bytes) :
    getArgument w (bigEndian w.bytes n ++ r) = some (w, n, r) := by
  have hlen := bigEndian_length w.bytes n
  have htake : (bigEndian w.bytes n ++ r).take w.bytes = bigEndian w.bytes n := List.take_left' hlen
  have hdrop : (bigEndian w.bytes n ++ r).drop w.bytes = r := List.drop_left' hlen
  rw [getArgument, htake, hdrop, ofBigEndian_bigEndian h, if_pos (by rw [List.length_append]; omega)]

theorem getHead_putHead (major : Nat) {n : Nat} {w : Width} {r : Bytes} (hmajor : major < 8) (h : n < 256 ^ w.bytes) :
    getHead (putHead major w n ++ r) = some (major, w, n, r) := by
  have hbyte : ∀ info, info < 32 →
      (UInt8.ofNat (32 * major + info)).toNat / 32 = major ∧ (UInt8.ofNat (32 * major + info)).toNat % 32 = info := by
    intro info hinfo
    rw [UInt8.toNat_ofNat']
    omega
  unfold putHead
  split
  · rename_i hshort
    obtain ⟨rfl, hn⟩ := hshort
    obtain ⟨hdiv, hmod⟩ := hbyte n (by omega)
    simp only [List.singleton_append, getHead, hdiv, hmod, if_pos hn]
  · obtain ⟨hdiv, hmod⟩ := hbyte w.info (by cases w <;> decide)
    simp only [List.cons_append, getHead, hdiv, hmod]
    cases w <;> simp [Width.info, getArgument_bigEndian h]

theorem putHead_length_pos (major : Nat) (w : Width) (n : Nat) : 0 < (putHead major w n).length := by
  unfold putHead
  split <;> simp

theorem putHead_length_le (major : Nat) (w : Width) (n : Nat) : (putHead major w n).length ≤ 9 := by
  unfold putHead
  split
  · simp
  · rw [List.length_cons, bigEndian_length]
    cases w <;> decide

/-! ### Serialisation -/

mutual

/-- The serialisation of an item of definite length; the other items have none. -/
def encode : Item → Bytes
  | .uint w n => putHead 0 w n
  | .negint w n => putHead 1 w n
  | .bytes data => putHead 2 (widthOf data.length) data.length ++ data
  | .text data => putHead 3 (widthOf data.length) data.length ++ data
  | .array _ items => putHead 4 (widthOf items.length) items.length ++ encodeItems items
  | .map _ pairs => putHead 5 (widthOf pairs.length) pairs.length ++ encodePairs pairs
  | .tag n item => putHead 6 (widthOf n) n ++ encode item
  | .bytesIndefinite | .textIndefinite | .floatCtrl => []
termination_by structural i => i

def encodeItems : List Item → Bytes
  | [] => []
  | item :: items => encode item ++ encodeItems items
termination_by structural l => l

def encodePairs : List (Item × Item) → Bytes
  | [] => []
  | pair :: pairs => encodePair pair ++ encodePairs pairs
termination_by structural l => l

def encodePair : Item × Item → Bytes
  | (key, value) => encode key ++ encode value
termination_by structural p => p

end

mutual

/-- Every length is definite and every number fits its encoding. -/
def Serializable : Item → Prop
  | .uint w n | .negint w n => n < 256 ^ w.bytes
  | .bytes data | .text data => data.length < 2 ^ 64
  | .array definite items => definite = true ∧ items.length < 2 ^ 64 ∧ SerializableItems items
  | .map definite pairs => definite = true ∧ pairs.length < 2 ^ 64 ∧ SerializablePairs pairs
  | .tag n item => n < 2 ^ 64 ∧ Serializable item
  | .bytesIndefinite | .textIndefinite | .floatCtrl => False
termination_by structural i => i

def SerializableItems : List Item → Prop
  | [] => True
  | item :: items => Serializable item ∧ SerializableItems items
termination_by structural l => l

def SerializablePairs : List (Item × Item) → Prop
  | [] => True
  | pair :: pairs => SerializablePair pair ∧ SerializablePairs pairs
termination_by structural l => l

def SerializablePair : Item × Item → Prop
  | (key, value) => Serializable key ∧ Serializable value
termination_by structural p => p

end

/-! ### Decoding -/

/-- Decode `n` items in a row. -/
def decodeItems (decode : Bytes → Option (Item × Bytes)) : Nat → Bytes → Option (List Item × Bytes)
  | 0, b => some ([], b)
  | n + 1, b => do
    let (item, b) ← decode b
    let (items, b) ← decodeItems decode n b
    return (item :: items, b)

def decodePair (decode : Bytes → Option (Item × Bytes)) (b : Bytes) : Option ((Item × Item) × Bytes) := do
  let (key, b) ← decode b
  let (value, b) ← decode b
  return ((key, value), b)

/-- Decode `n` pairs in a row. -/
def decodePairs (decode : Bytes → Option (Item × Bytes)) : Nat → Bytes → Option (List (Item × Item) × Bytes)
  | 0, b => some ([], b)
  | n + 1, b => do
    let (pair, b) ← decodePair decode b
    let (pairs, b) ← decodePairs decode n b
    return (pair :: pairs, b)

def takeBytes (n : Nat) (b : Bytes) : Option (Bytes × Bytes) :=
  if n ≤ b.length then some (b.take n, b.drop n) else none

/-- Decode the first item; the fuel bounds the nesting. -/
def decodeItem : Nat → Bytes → Option (Item × Bytes)
  | 0, _ => none
  | fuel + 1, b => do
    let (major, w, n, r) ← getHead b
    match major with
    | 0 => return (.uint w n, r)
    | 1 => return (.negint w n, r)
    | 2 => let (data, r) ← takeBytes n r; return (.bytes data, r)
    | 3 => let (data, r) ← takeBytes n r; return (.text data, r)
    | 4 => let (items, r) ← decodeItems (decodeItem fuel) n r; return (.array true items, r)
    | 5 => let (pairs, r) ← decodePairs (decodeItem fuel) n r; return (.map true pairs, r)
    | 6 => let (item, r) ← decodeItem fuel r; return (.tag n item, r)
    | _ => none

/-- The first item of a byte string.  Every level of nesting takes a byte at least, so the fuel is enough. -/
def load (b : Bytes) : Option Item := (decodeItem b.length b).map (·.1)

/-! ### The round trip -/

theorem lt_widthOf {n : Nat} (h : n < 2 ^ 64) : n < 256 ^ (widthOf n).bytes := by
  unfold widthOf
  split_ifs <;> simp only [Width.bytes] <;> omega

theorem takeBytes_append (data r : Bytes) : takeBytes data.length (data ++ r) = some (data, r) := by
  simp [takeBytes]

/-- The fuel for a head and its contents `c` is enough for the contents after one step. -/
theorem fuel_after_head {major n fuel : Nat} {w : Width} {c : Bytes}
    (h : (putHead major w n ++ c).length ≤ fuel) : ∃ left, fuel = left + 1 ∧ c.length ≤ left := by
  have hpos := putHead_length_pos major w n
  rw [List.length_append] at h
  exact ⟨fuel - 1, by omega, by omega⟩

mutual

theorem decodeItem_encode : ∀ (i : Item), Serializable i → ∀ (fuel : Nat) (r : Bytes), (encode i).length ≤ fuel →
    decodeItem fuel (encode i ++ r) = some (i, r)
  | .uint w n, h, fuel, r, hfuel => by
    obtain ⟨left, rfl, -⟩ := fuel_after_head (c := []) (by simpa [encode] using hfuel)
    simp [encode, decodeItem, getHead_putHead 0 (by omega) h]
  | .negint w n, h, fuel, r, hfuel => by
    obtain ⟨left, rfl, -⟩ := fuel_after_head (c := []) (by simpa [encode] using hfuel)
    simp [encode, decodeItem, getHead_putHead 1 (by omega) h]
  | .bytes data, h, fuel, r, hfuel => by
    obtain ⟨left, rfl, -⟩ := fuel_after_head hfuel
    simp [encode, decodeItem, getHead_putHead 2 (by omega) (lt_widthOf h), takeBytes_append]
  | .text data, h, fuel, r, hfuel => by
    obtain ⟨left, rfl, -⟩ := fuel_after_head hfuel
    simp [encode, decodeItem, getHead_putHead 3 (by omega) (lt_widthOf h), takeBytes_append]
  | .array definite items, h, fuel, r, hfuel => by
    obtain ⟨rfl, hlen, hitems⟩ := h
    obtain ⟨left, rfl, hleft⟩ := fuel_after_head hfuel
    simp [encode, decodeItem, getHead_putHead 4 (by omega) (lt_widthOf hlen),
      decodeItems_encode items hitems left r hleft]
  | .map definite pairs, h, fuel, r, hfuel => by
    obtain ⟨rfl, hlen, hpairs⟩ := h
    obtain ⟨left, rfl, hleft⟩ := fuel_after_head hfuel
    simp [encode, decodeItem, getHead_putHead 5 (by omega) (lt_widthOf hlen),
      decodePairs_encode pairs hpairs left r hleft]
  | .tag n item, h, fuel, r, hfuel => by
    obtain ⟨hn, hitem⟩ := h
    obtain ⟨left, rfl, hleft⟩ := fuel_after_head hfuel
    simp [encode, decodeItem, getHead_putHead 6 (by omega) (lt_widthOf hn),
      decodeItem_encode item hitem left r hleft]
  | .bytesIndefinite, h, _, _, _ => h.elim
  | .textIndefinite, h, _, _, _ => h.elim
  | .floatCtrl, h, _, _, _ => h.elim
termination_by structural i => i

theorem decodeItems_encode : ∀ (l : List Item), SerializableItems l → ∀ (fuel : Nat) (r : Bytes),
    (encodeItems l).length ≤ fuel →
    decodeItems (decodeItem fuel) l.length (encodeItems l ++ r) = some (l, r)
  | [], _, _, _, _ => rfl
  | item :: items, h, fuel, r, hfuel => by
    rw [encodeItems, List.length_append] at hfuel
    simp [encodeItems, decodeItems, decodeItem_encode item h.1 fuel _ (by omega),
      decodeItems_encode items h.2 fuel r (by omega)]
termination_by structural l => l

theorem decodePairs_encode : ∀ (l : List (Item × Item)), SerializablePairs l → ∀ (fuel : Nat) (r : Bytes),
    (encodePairs l).length ≤ fuel →
    decodePairs (decodeItem fuel) l.length (encodePairs l ++ r) = some (l, r)
  | [], _, _, _, _ => rfl
  | pair :: pairs, h, fuel, r, hfuel => by
    rw [encodePairs, List.length_append] at hfuel
    simp [encodePairs, decodePairs, decodePair_encode pair h.1 fuel _ (by omega),
      decodePairs_encode pairs h.2 fuel r (by omega)]
termination_by structural l => l

theorem decodePair_encode : ∀ (p : Item × Item), SerializablePair p → ∀ (fuel : Nat) (r : Bytes),
    (encodePair p).length ≤ fuel → decodePair (decodeItem fuel) (encodePair p ++ r) = some (p, r)
  | (key, value), h, fuel, r, hfuel => by
    rw [encodePair, List.length_append] at hfuel
    simp [encodePair, decodePair, decodeItem_encode key h.1 fuel _ (by omega),
      decodeItem_encode value h.2 fuel r (by omega)]
termination_by structural p => p

end

/-- An encoded item is decoded to itself, whatever follows it. -/
theorem load_encode {i : Item} (h : Serializable i) (r : Bytes) : load (encode i ++ r) = some i := by
  have hlen : (encode i).length ≤ (encode i ++ r).length := by simp
  rw [load, decodeItem_encode i h _ r hlen]
  rfl

theorem load_encode_eq (item : Item) (hitem : Serializable item) : load (encode item) = some item := by
  have hround := load_encode hitem []
  rwa [List.append_nil] at hround

theorem serializableItems_iff {items : List Item} :
    SerializableItems items ↔ ∀ item ∈ items, Serializable item := by
  induction items with
  | nil => simp [SerializableItems]
  | cons item items ih => rw [SerializableItems, ih, List.forall_mem_cons]

theorem serializablePairs_iff {pairs : List (Item × Item)} :
    SerializablePairs pairs ↔ ∀ pair ∈ pairs, SerializablePair pair := by
  induction pairs with
  | nil => simp [SerializablePairs]
  | cons pair pairs ih => rw [SerializablePairs, ih, List.forall_mem_cons]

theorem encode_string_length_le (data : Bytes) :
    (encode (.bytes data)).length ≤ 9 + data.length ∧ (encode (.text data)).length ≤ 9 + data.length := by
  have hbytes := putHead_length_le 2 (widthOf data.length) data.length
  have htext := putHead_length_le 3 (widthOf data.length) data.length
  simp only [encode, List.length_append]
  omega

/-- The serialisation of pairs is no longer than that many serialisations of the longest. -/
theorem encodePairs_length_le {pairs : List (Item × Item)} {k : Nat}
    (h : ∀ pair ∈ pairs, (encodePair pair).length ≤ k) : (encodePairs pairs).length ≤ k * pairs.length := by
  induction pairs with
  | nil => exact Nat.zero_le _
  | cons pair pairs ih =>
    rw [List.forall_mem_cons] at h
    have hrest := ih h.2
    rw [encodePairs, List.length_append, List.length_cons, Nat.mul_succ]
    omega

/-- A byte string under a name, with bounds on the two lengths. -/
def NamedBytes (n k : Nat) (pair : Item × Item) : Prop :=
  ∃ name data, pair = (.text name, .bytes data) ∧ name.length ≤ n ∧ data.length ≤ k

theorem serializable_namedBytes {pairs : List (Item × Item)} {n k : Nat} (hn : n < 2 ^ 64) (hk : k < 2 ^ 64)
    (hlength : pairs.length < 2 ^ 64) (h : ∀ pair ∈ pairs, NamedBytes n k pair) : Serializable (.map true pairs) := by
  refine ⟨rfl, hlength, serializablePairs_iff.2 ?_⟩
  intro pair hpair
  obtain ⟨name, data, rfl, hname, hdata⟩ := h pair hpair
  exact ⟨Nat.lt_of_le_of_lt hname hn, Nat.lt_of_le_of_lt hdata hk⟩

theorem encode_namedBytes_length_le {pairs : List (Item × Item)} {n k : Nat} (definite : Bool)
    (h : ∀ pair ∈ pairs, NamedBytes n k pair) :
    (encode (.map definite pairs)).length ≤ 9 + (18 + n + k) * pairs.length := by
  have hhead := putHead_length_le 5 (widthOf pairs.length) pairs.length
  have hpairs : (encodePairs pairs).length ≤ (18 + n + k) * pairs.length := by
    apply encodePairs_length_le
    intro pair hpair
    obtain ⟨name, data, rfl, hname, hdata⟩ := h pair hpair
    have hkey := (encode_string_length_le name).2
    have hvalue := (encode_string_length_le data).1
    rw [encodePair, List.length_append]
    omega
  rw [encode.eq_def]
  simp only [List.length_append]
  omega

theorem encode_map_ne_nil (definite : Bool) (pairs : List (Item × Item)) : encode (.map definite pairs) ≠ [] := by
  rw [encode.eq_def]
  exact List.append_ne_nil_of_left_ne_nil (List.ne_nil_of_length_pos (putHead_length_pos _ _ _)) _

theorem encode_array_ne_nil (definite : Bool) (items : List Item) : encode (.array definite items) ≠ [] := by
  rw [encode.eq_def]
  exact List.append_ne_nil_of_left_ne_nil (List.ne_nil_of_length_pos (putHead_length_pos _ _ _)) _

theorem encode_ne_nil {i : Item} (h : Serializable i) : encode i ≠ [] := by
  intro hnil
  have hload := load_encode h []
  rw [hnil] at hload
  cases hload

/-- What is relied on of a decoder and a serialiser that belong together. -/
structure Codec (load : Bytes → Option Item) (serialize : Item → Bytes) : Prop where
  load : ∀ i, Serializable i → load (serialize i) = some i
  ne_nil : ∀ i, Serializable i → serialize i ≠ []
  length_le : ∀ i, Serializable i → (serialize i).length ≤ (encode i).length

theorem codec_encode : Codec load encode where
  load := load_encode_eq
  ne_nil := fun _ => encode_ne_nil
  length_le := fun _ _ => Nat.le_refl _

end Cbor
