import CardinalityTracker.EngineTheorems

/-!
# The gob encoding of a map of byte slices

`Gob` is a parameter of the engine; this is the stream that `encoding/gob` produces for one
value of type `map[string][]byte` as a value of it: a message that defines the map type
under the first free type id, then a message with the bindings.
-/

namespace CardinalityTracker
namespace GobCodec

open Lib

/-! ## Unsigned integers -/

/-- The big-endian bytes of a number, without leading zeros. -/
def bigEndian (n : ℕ) : Bytes := (Nat.digits 256 n).reverse.map UInt8.ofNat

def ofBigEndian (b : Bytes) : ℕ := b.foldl (fun acc x => acc * 256 + x.toNat) 0

/-- One byte below 128; otherwise the negated byte count, then the bytes. -/
def encodeUint (n : ℕ) : Bytes :=
  if n < 128 then [UInt8.ofNat n] else UInt8.ofNat (256 - (bigEndian n).length) :: bigEndian n

def decodeUint : Bytes → Option (ℕ × Bytes)
  | [] => none
  | a :: rest =>
    if a.toNat < 128 then some (a.toNat, rest)
    else if rest.length < 256 - a.toNat then none
    else some (ofBigEndian (rest.take (256 - a.toNat)), rest.drop (256 - a.toNat))

theorem ofBigEndian_bigEndian (n : ℕ) : ofBigEndian (bigEndian n) = n := by
  have hfold : ∀ ds : List ℕ, (∀ d ∈ ds, d < 256) →
      ofBigEndian (ds.reverse.map UInt8.ofNat) = Nat.ofDigits 256 ds := by
    intro ds hds
    induction ds with
    | nil => rfl
    | cons d ds ih =>
      have hd : d < 256 := hds d List.mem_cons_self
      have htail := ih fun d' hd' => hds d' (List.mem_cons_of_mem _ hd')
      unfold ofBigEndian at htail ⊢
      rw [List.reverse_cons, List.map_append, List.foldl_append, htail, Nat.ofDigits_cons]
      simp only [List.map_cons, List.map_nil, List.foldl_cons, List.foldl_nil,
        UInt8.toNat_ofNat', Nat.mod_eq_of_lt hd]
      ring
  unfold bigEndian
  rw [hfold _ fun d hd => Nat.digits_lt_base (by norm_num) hd, Nat.ofDigits_digits]

theorem length_bigEndian_le {n : ℕ} (h : n < 2 ^ 64) : (bigEndian n).length ≤ 8 := by
  unfold bigEndian
  rw [List.length_map, List.length_reverse, Nat.digits_length_le_iff (by norm_num)]
  omega

theorem length_bigEndian_pos {n : ℕ} (h : n ≠ 0) : 0 < (bigEndian n).length := by
  unfold bigEndian
  rw [List.length_map, List.length_reverse, List.length_pos_iff]
  exact Nat.digits_ne_nil_iff_ne_zero.mpr h

theorem decodeUint_encodeUint {n : ℕ} (h : n < 2 ^ 64) (rest : Bytes) :
    decodeUint (encodeUint n ++ rest) = some (n, rest) := by
  unfold encodeUint
  by_cases hn : n < 128
  · have hbyte : (UInt8.ofNat n).toNat = n := UInt8.toNat_ofNat_of_lt' (show n < 2 ^ 8 by omega)
    rw [if_pos hn, List.singleton_append, decodeUint, hbyte, if_pos hn]
  · have hle := length_bigEndian_le h
    have hpos := length_bigEndian_pos (show n ≠ 0 by omega)
    have hbyte : (UInt8.ofNat (256 - (bigEndian n).length)).toNat = 256 - (bigEndian n).length :=
      UInt8.toNat_ofNat_of_lt' (show 256 - (bigEndian n).length < 2 ^ 8 by omega)
    have hcount : 256 - (256 - (bigEndian n).length) = (bigEndian n).length := by omega
    rw [if_neg hn, List.cons_append, decodeUint, hbyte, hcount, if_neg (by omega),
      if_neg (by rw [List.length_append]; omega), List.take_left, List.drop_left,
      ofBigEndian_bigEndian]

/-! ## Byte slices and bindings -/

def encodeBytes (b : Bytes) : Bytes := encodeUint b.length ++ b

def decodeBytes (buf : Bytes) : Option (Bytes × Bytes) := do
  let (n, rest) ← decodeUint buf
  if rest.length < n then none else some (rest.take n, rest.drop n)

theorem decodeBytes_encodeBytes {b : Bytes} (h : b.length < 2 ^ 64) (rest : Bytes) :
    decodeBytes (encodeBytes b ++ rest) = some (b, rest) := by
  unfold decodeBytes encodeBytes
  rw [List.append_assoc, decodeUint_encodeUint h]
  simp

def encodePairs (l : List (GoString × Bytes)) : Bytes :=
  l.flatMap fun p => encodeBytes p.1 ++ encodeBytes p.2

def decodePairs : ℕ → Bytes → Option (List (GoString × Bytes) × Bytes)
  | 0, buf => some ([], buf)
  | n + 1, buf => do
    let (k, buf) ← decodeBytes buf
    let (v, buf) ← decodeBytes buf
    let (l, buf) ← decodePairs n buf
    some ((k, v) :: l, buf)

theorem encodePairs_cons (p : GoString × Bytes) (l : List (GoString × Bytes)) :
    encodePairs (p :: l) = encodeBytes p.1 ++ (encodeBytes p.2 ++ encodePairs l) := by
  unfold encodePairs
  rw [List.flatMap_cons, List.append_assoc]

theorem length_lt_encodeBytes (b : Bytes) : b.length < (encodeBytes b).length := by
  unfold encodeBytes encodeUint
  rw [List.length_append]
  split
  · rw [List.length_singleton]
    omega
  · rw [List.length_cons]
    omega

theorem length_le_encodePairs (l : List (GoString × Bytes)) :
    l.length ≤ (encodePairs l).length := by
  induction l with
  | nil => exact Nat.zero_le _
  | cons p l ih =>
    have hkey := length_lt_encodeBytes p.1
    rw [encodePairs_cons, List.length_cons, List.length_append, List.length_append]
    omega

theorem decodePairs_encodePairs {l : List (GoString × Bytes)}
    (h : (encodePairs l).length < 2 ^ 64) :
    decodePairs l.length (encodePairs l) = some (l, []) := by
  induction l with
  | nil => rfl
  | cons p l ih =>
    have hkey := length_lt_encodeBytes p.1
    have hval := length_lt_encodeBytes p.2
    rw [encodePairs_cons, List.length_append, List.length_append] at h
    have hk := decodeBytes_encodeBytes (show p.1.length < 2 ^ 64 by omega)
      (encodeBytes p.2 ++ encodePairs l)
    have hv := decodeBytes_encodeBytes (show p.2.length < 2 ^ 64 by omega) (encodePairs l)
    rw [encodePairs_cons, List.length_cons, decodePairs]
    simp only [hk, hv, ih (show (encodePairs l).length < 2 ^ 64 by omega), Option.bind_eq_bind,
      Option.bind_some]

/-! ## The stream -/

/-- The definition of `map[string][]byte` as type 64: key type 6, element type 5. -/
def typeMessage : Bytes :=
  [0x0d, 0x7f, 0x04, 0x01, 0x02, 0xff, 0x80, 0x00, 0x01, 0x0c, 0x01, 0x0a, 0x00, 0x00]

/-- The type id that starts a value message, and the zero before a value that is no struct. -/
def valueHeader : Bytes := [0xff, 0x80, 0x00]

/-- `Encoder.Encode`. Messages are limited to 8 GiB, the limit of a 64-bit platform. -/
def encode (wire : StringMap Bytes) : Except GoString Bytes :=
  let body := valueHeader ++ (encodeUint wire.toList.length ++ encodePairs wire.toList)
  if 2 ^ 33 ≤ body.length then .error (str "gob: encoder: message too big")
  else .ok (typeMessage ++ encodeBytes body)

theorem length_encodeBytes_le {b : Bytes} (h : b.length < 2 ^ 64) :
    (encodeBytes b).length ≤ b.length + 9 := by
  have hle := length_bigEndian_le h
  unfold encodeBytes encodeUint
  rw [List.length_append]
  split
  · rw [List.length_singleton]
    omega
  · rw [List.length_cons]
    omega

/-- One binding of moderate size is encoded. -/
theorem encode_singleton {k v : Bytes} (h : k.length + v.length < 2 ^ 20) :
    ∃ data, encode ((∅ : StringMap Bytes).insert k v) = .ok data := by
  have hk := length_encodeBytes_le (show k.length < 2 ^ 64 by omega)
  have hv := length_encodeBytes_le (show v.length < 2 ^ 64 by omega)
  have hlist : ((∅ : StringMap Bytes).insert k v).toList = [(k, v)] := rfl
  refine ⟨_, if_neg ?_⟩
  rw [hlist, encodePairs_cons]
  simp only [List.length_append, valueHeader, encodePairs, List.flatMap_nil, List.length_cons,
    List.length_nil, encodeUint]
  norm_num
  omega

/-- `Decoder.Decode` into a nil map, of a stream that defines the type as above. -/
def decode (data : Bytes) : Except GoString (StringMap Bytes) :=
  let wire := do
    let (body, _) ← decodeBytes (data.drop typeMessage.length)
    let (count, buf) ← decodeUint (body.drop valueHeader.length)
    let (l, _) ← decodePairs count buf
    if data.take typeMessage.length = typeMessage ∧ body.take valueHeader.length = valueHeader
    then some (fill ∅ l) else none
  match wire with
  | none => .error (str "gob: bad data")
  | some wire => .ok wire

/-- Bindings in key order. -/
def keyOrder : RangeOrder := ⟨fun m => m.toList, fun m => List.Perm.refl m.toList⟩

theorem fill_toList (wire : StringMap Bytes) : fill ∅ wire.toList = wire := by
  refine Std.ExtTreeMap.ext_getElem? fun g => ?_
  have h := Engine.getElem?_fill_range keyOrder wire Prod.snd g
  simpa [keyOrder] using h

/-- The codec as a value of the engine's parameter. -/
def codec : Gob := ⟨encode, decode⟩

theorem codec_roundTrips : codec.RoundTrips := by
  intro wire data h
  show decode data = .ok wire
  change encode wire = .ok data at h
  unfold encode at h
  simp only at h
  split at h
  · cases h
  · rename_i hbody
    rw [Except.ok.injEq] at h
    -- the limit on the message bounds every length in it
    have hbound : (valueHeader ++ (encodeUint wire.toList.length
        ++ encodePairs wire.toList)).length < 2 ^ 64 := by omega
    have hpairs : (encodePairs wire.toList).length < 2 ^ 64 := by
      rw [List.length_append, List.length_append] at hbound
      omega
    have hcount : wire.toList.length < 2 ^ 64 :=
      lt_of_le_of_lt (length_le_encodePairs wire.toList) hpairs
    have hread := decodeBytes_encodeBytes hbound []
    rw [List.append_nil] at hread
    unfold decode
    rw [← h]
    simp only [List.drop_left, List.take_left, hread, Option.bind_eq_bind, Option.bind_some,
      decodeUint_encodeUint hcount, decodePairs_encodePairs hpairs, and_self, if_true,
      fill_toList]

end GobCodec
end CardinalityTracker
