import CardinalityTracker.Raft.Node

/-!
# The protobuf encoding of a command

`Proto` is a parameter of the node; this is the proto3 wire format at `pb.Command` as a
value of it: three length-delimited fields in the order of their numbers, an empty one left
out, and strings that have to be valid UTF-8. A field number that `pb.Command` does not have
is refused here, where the library would skip it.
-/

namespace CardinalityTracker
namespace Protobuf

open Lib.Uvarint

/-- `utf8.Valid`. -/
def validUtf8 : Bytes → Bool
  | [] => true
  | a :: b :: c :: d :: rest =>
    if a < 0x80 then validUtf8 (b :: c :: d :: rest)
    else if 0xc2 ≤ a ∧ a ≤ 0xdf ∧ cont b then validUtf8 (c :: d :: rest)
    else if three a b c then validUtf8 (d :: rest)
    else four a b c d && validUtf8 rest
  | [a, b, c] =>
    if a < 0x80 then validUtf8 [b, c]
    else if 0xc2 ≤ a ∧ a ≤ 0xdf ∧ cont b then validUtf8 [c]
    else three a b c
  | [a, b] =>
    if a < 0x80 then validUtf8 [b]
    else 0xc2 ≤ a ∧ a ≤ 0xdf ∧ cont b
  | [a] => a < 0x80
where
  /-- A continuation byte. -/
  cont (b : UInt8) : Bool := 0x80 ≤ b && b ≤ 0xbf
  /-- A three-byte sequence: neither overlong nor a surrogate. -/
  three (a b c : UInt8) : Bool :=
    0xe0 ≤ a && a ≤ 0xef && cont b && cont c && (a != 0xe0 || 0xa0 ≤ b) && (a != 0xed || b ≤ 0x9f)
  /-- A four-byte sequence: neither overlong nor beyond the last code point. -/
  four (a b c d : UInt8) : Bool :=
    0xf0 ≤ a && a ≤ 0xf4 && cont b && cont c && cont d && (a != 0xf0 || 0x90 ≤ b)
      && (a != 0xf4 || b ≤ 0x8f)

/-- A length-delimited field; an empty one is left out. -/
def appendField (tag : UInt8) (b : Bytes) : Bytes :=
  if b = [] then [] else tag :: (appendUvarint [] (UInt64.ofNat b.length) ++ b)

/-- `type = 1`, `group = 2` and `payload = 3`, all of wire type 2. -/
def typeTag : UInt8 := 0x0a
def groupTag : UInt8 := 0x12
def payloadTag : UInt8 := 0x1a

/-- `proto.Marshal`. Messages are limited to 2 GiB. -/
def marshal (cmd : Command) : Except GoString Bytes :=
  if ¬ validUtf8 cmd.type ∨ ¬ validUtf8 cmd.group then
    .error (str "string field contains invalid UTF-8")
  else if 2 ^ 31 ≤ cmd.type.length ∨ 2 ^ 31 ≤ cmd.group.length ∨ 2 ^ 31 ≤ cmd.payload.length then
    .error (str "message too large")
  else
    .ok (appendField typeTag cmd.type ++ (appendField groupTag cmd.group
      ++ appendField payloadTag cmd.payload))

/-- Store the value of one field. -/
def setField (cmd : Command) (tag : UInt8) (b : Bytes) : Option Command :=
  if tag = typeTag then if validUtf8 b then some { cmd with type := b } else none
  else if tag = groupTag then if validUtf8 b then some { cmd with group := b } else none
  else if tag = payloadTag then some { cmd with payload := b }
  else none

/-- The decoder's loop over the fields; every field takes at least one byte of `fuel`. -/
def unmarshalLoop : ℕ → Bytes → Command → Except GoString Command
  | _, [], cmd => .ok cmd
  | 0, _ :: _, _ => .error (str "unexpected EOF")
  | fuel + 1, tag :: buf, cmd =>
    let (len, n) := uvarint buf
    let rest := buf.drop n.toNat
    if n ≤ 0 ∨ rest.length < len.toNat then .error (str "unexpected EOF")
    else
      match setField cmd tag (rest.take len.toNat) with
      | none => .error (str "cannot parse invalid wire-format data")
      | some cmd' => unmarshalLoop fuel (rest.drop len.toNat) cmd'

/-- `proto.Unmarshal` into a fresh command. -/
def unmarshal (data : Bytes) : Except GoString Command :=
  unmarshalLoop data.length data ⟨[], [], []⟩

/-- Advance the loop over one field. An empty field is not in the buffer; its value is then
the one the command started with. -/
theorem unmarshalLoop_appendField (tag : UInt8) {b : Bytes} (hb : b.length < 2 ^ 31)
    (rest : Bytes) (cmd cmd' : Command)
    (hset : if b = [] then cmd' = cmd else setField cmd tag b = some cmd') {fuel : ℕ}
    (hfuel : (appendField tag b ++ rest).length ≤ fuel) :
    ∃ fuel', rest.length ≤ fuel' ∧
      unmarshalLoop fuel (appendField tag b ++ rest) cmd = unmarshalLoop fuel' rest cmd' := by
  unfold appendField at hfuel ⊢
  by_cases hnil : b = []
  · rw [if_pos hnil] at hset hfuel ⊢
    exact ⟨fuel, hfuel, by rw [hset]; rfl⟩
  · rw [if_neg hnil] at hset hfuel ⊢
    have hread := uvarint_appendUvarint (UInt64.ofNat b.length) (b ++ rest)
    have hlen : (UInt64.ofNat b.length).toNat = b.length :=
      UInt64.toNat_ofNat_of_lt' (show b.length < 2 ^ 64 by omega)
    have hpos : 0 < (appendUvarint [] (UInt64.ofNat b.length)).length :=
      List.length_pos_iff.mpr (appendUvarint_ne_nil _)
    obtain ⟨fuel, rfl⟩ : ∃ k, fuel = k + 1 := by
      refine ⟨fuel - 1, ?_⟩
      simp only [List.cons_append, List.length_cons] at hfuel
      omega
    refine ⟨fuel, ?_, ?_⟩
    · simp only [List.cons_append, List.length_cons, List.length_append] at hfuel
      omega
    · rw [List.cons_append, List.append_assoc, unmarshalLoop, hread]
      simp only [Int.toNat_natCast, List.drop_left, hlen, List.take_left, List.length_append, hset]
      rw [if_neg (by omega)]

/-- **Round trip.** What `Marshal` writes, `Unmarshal` reads back. -/
theorem unmarshal_marshal {cmd : Command} {data : Bytes} (h : marshal cmd = .ok data) :
    unmarshal data = .ok cmd := by
  obtain ⟨type, group, payload⟩ := cmd
  unfold marshal at h
  by_cases hutf : ¬ validUtf8 type ∨ ¬ validUtf8 group
  · rw [if_pos hutf] at h
    cases h
  by_cases hlong : 2 ^ 31 ≤ type.length ∨ 2 ^ 31 ≤ group.length ∨ 2 ^ 31 ≤ payload.length
  · rw [if_neg hutf, if_pos hlong] at h
    cases h
  rw [if_neg hutf, if_neg hlong, Except.ok.injEq] at h
  push Not at hutf hlong
  -- what each field sets, in the order of the fields
  have htype : if type = [] then (⟨type, [], []⟩ : Command) = ⟨[], [], []⟩
      else setField ⟨[], [], []⟩ typeTag type = some ⟨type, [], []⟩ := by
    split
    · rename_i hnil
      rw [hnil]
    · simp [setField, hutf.1]
  have hgroup : if group = [] then (⟨type, group, []⟩ : Command) = ⟨type, [], []⟩
      else setField ⟨type, [], []⟩ groupTag group = some ⟨type, group, []⟩ := by
    split
    · rename_i hnil
      rw [hnil]
    · simp [setField, hutf.2, groupTag, typeTag]
  have hpayload : if payload = [] then (⟨type, group, payload⟩ : Command) = ⟨type, group, []⟩
      else setField ⟨type, group, []⟩ payloadTag payload = some ⟨type, group, payload⟩ := by
    split
    · rename_i hnil
      rw [hnil]
    · simp [setField, groupTag, typeTag, payloadTag]
  obtain ⟨f₁, hf₁, h₁⟩ := unmarshalLoop_appendField typeTag hlong.1
    (appendField groupTag group ++ appendField payloadTag payload) _ _ htype le_rfl
  obtain ⟨f₂, hf₂, h₂⟩ := unmarshalLoop_appendField groupTag hlong.2.1
    (appendField payloadTag payload) _ _ hgroup hf₁
  have hf₂' : (appendField payloadTag payload ++ []).length ≤ f₂ := by
    rw [List.append_nil]
    exact hf₂
  obtain ⟨f₃, -, h₃⟩ := unmarshalLoop_appendField payloadTag hlong.2.2 [] _ _ hpayload hf₂'
  rw [List.append_nil] at h₃
  have hdone : unmarshalLoop f₃ [] ⟨type, group, payload⟩ = .ok ⟨type, group, payload⟩ := by
    cases f₃ <;> rfl
  unfold unmarshal
  rw [← h, h₁, h₂, h₃, hdone]

/-- The codec as a value of the node's parameter. -/
def codec : Proto := ⟨marshal, unmarshal⟩

theorem codec_lawful : codec.Lawful where
  unmarshal_marshal := fun _ _ => unmarshal_marshal
  unmarshal_nil := rfl

end Protobuf
end CardinalityTracker
