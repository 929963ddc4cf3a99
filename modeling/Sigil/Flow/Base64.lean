import Mathlib

/-!
# Base64

The encoding of RFC 4648 with padding: three bytes make four characters, and `=` stands for the
characters that the last group does not fill.
-/

namespace Flow.Base64

/-- The characters for the values below 64. -/
def alphabet : List UInt8 :=
    "ABCDEFGHIJKLMNOPQRSTUVWXYZabcdefghijklmnopqrstuvwxyz0123456789+/".toUTF8.toList

def char (value : Nat) : UInt8 := alphabet.getD value 0

def padding : UInt8 := 61

/-- The four values in the 24 bits of three bytes, the highest first. -/
def sextet (a b c : UInt8) (k : Nat) : Nat :=
    (a.toNat * 65536 + b.toNat * 256 + c.toNat) / 64 ^ (3 - k) % 64

def encode : List UInt8 → List UInt8
  | [] => []
  | [a] => [char (sextet a 0 0 0), char (sextet a 0 0 1), padding, padding]
  | [a, b] => [char (sextet a b 0 0), char (sextet a b 0 1), char (sextet a b 0 2), padding]
  | a :: b :: c :: rest =>
      [char (sextet a b c 0), char (sextet a b c 1), char (sextet a b c 2),
        char (sextet a b c 3)] ++ encode rest

example : encode "Man".toUTF8.toList = "TWFu".toUTF8.toList ∧ encode "Ma".toUTF8.toList =
  "TWE=".toUTF8.toList := by
  decide +kernel

/-- Three bytes are four characters. -/
theorem length_encode (l : List UInt8) : (encode l).length = 4 * ((l.length + 2) / 3) := by
  induction l using encode.induct with
  | case1 => rfl
  | case2 a => simp [encode]
  | case3 a b => simp [encode]
  | case4 a b c rest ih =>
      simp only [encode, List.length_append, ih, List.length_cons, List.length_nil]
      omega

/-- A list whose groups are full is encoded on its own. -/
theorem encode_append {l : List UInt8} (full : 3 ∣ l.length) (rest : List UInt8) :
    encode (l ++ rest) = encode l ++ encode rest := by
  induction l using encode.induct with
  | case1 => rfl
  | case2 a => exact absurd full (by simp)
  | case3 a b => exact absurd full (by simp)
  | case4 a b c l ih =>
      have shorter : 3 ∣ l.length := by simpa using full
      rw [List.cons_append, List.cons_append, List.cons_append, encode, encode, ih shorter,
        List.append_assoc]

end Flow.Base64
