import CardinalityTracker.Go

/-!
# MurmurHash3

The two hash functions of `github.com/spaolacci/murmur3` that the program calls. Everything
that is proved about the program holds for any hash functions in their place; these are for
evaluating it.
-/

namespace CardinalityTracker
namespace Murmur3

/-- Little-endian bytes as a number. -/
def word (b : Bytes) : ℕ := b.foldr (fun x acc => x.toNat + 256 * acc) 0

/-! ## 32 bits -/

def rotl32 (x : UInt32) (r : UInt32) : UInt32 := x <<< r ||| x >>> (32 - r)

def mix32 (k : UInt32) : UInt32 := rotl32 (k * 0xcc9e2d51) 15 * 0x1b873593

def fmix32 (h : UInt32) : UInt32 :=
  let h := (h ^^^ h >>> 16) * 0x85ebca6b
  let h := (h ^^^ h >>> 13) * 0xc2b2ae35
  h ^^^ h >>> 16

/-- The body, four bytes at a time, then the tail. -/
def blocks32 (h : UInt32) : Bytes → UInt32
  | a :: b :: c :: d :: rest =>
    blocks32 (rotl32 (h ^^^ mix32 (UInt32.ofNat (word [a, b, c, d]))) 13 * 5 + 0xe6546b64) rest
  | [] => h
  | tail => h ^^^ mix32 (UInt32.ofNat (word tail))

/-- `murmur3.Sum32`. -/
def sum32 (data : Bytes) : UInt32 := fmix32 (blocks32 0 data ^^^ UInt32.ofNat data.length)

/-! ## 64 bits -/

def rotl64 (x : UInt64) (r : UInt64) : UInt64 := x <<< r ||| x >>> (64 - r)

def mixFirst (k : UInt64) : UInt64 := rotl64 (k * 0x87c37b91114253d5) 31 * 0x4cf5ad432745937f

def mixSecond (k : UInt64) : UInt64 := rotl64 (k * 0x4cf5ad432745937f) 33 * 0x87c37b91114253d5

def fmix64 (k : UInt64) : UInt64 :=
  let k := (k ^^^ k >>> 33) * 0xff51afd7ed558ccd
  let k := (k ^^^ k >>> 33) * 0xc4ceb9fe1a85ec53
  k ^^^ k >>> 33

/-- One block of sixteen bytes. -/
def block64 (h : UInt64 × UInt64) (b : Bytes) : UInt64 × UInt64 :=
  let h₁ := h.1 ^^^ mixFirst (UInt64.ofNat (word (b.take 8)))
  let h₁ := (rotl64 h₁ 27 + h.2) * 5 + 0x52dce729
  let h₂ := h.2 ^^^ mixSecond (UInt64.ofNat (word (b.drop 8)))
  (h₁, (rotl64 h₂ 31 + h₁) * 5 + 0x38495ab5)

/-- `murmur3.Sum64`, the first half of the 128-bit hash. -/
def sum64 (data : Bytes) : UInt64 :=
  let full := data.length / 16
  let h := (List.range full).foldl (fun h i => block64 h ((data.drop (16 * i)).take 16)) (0, 0)
  let tail := data.drop (16 * full)
  let len := UInt64.ofNat data.length
  let h₁ := h.1 ^^^ mixFirst (UInt64.ofNat (word (tail.take 8))) ^^^ len
  let h₂ := h.2 ^^^ mixSecond (UInt64.ofNat (word (tail.drop 8))) ^^^ len
  let h₁ := h₁ + h₂
  let h₂ := h₂ + h₁
  fmix64 h₁ + fmix64 h₂

example : sum32 (str "hello") = 0x248bfa47 := by decide
example : sum64 (str "hello") = 0xcbd8a7b341bd9b02 := by decide

end Murmur3
end CardinalityTracker
