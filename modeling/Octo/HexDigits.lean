/-
Digests and identifiers in hexadecimal digits.  `byte_to_hex` writes a NUL behind
two digits, and the next two are written over it.
-/
import Octo.Password

namespace Octo

open Password
open List hiding Vector

namespace HexDigits

/-- The loop of `md5_to_hex`, with the bytes of `hex` up to the last one written. -/
def hexLoop (hex : List UInt8) (j : ℕ) : List UInt8 → List UInt8
  | [] => hex.take j ++ [0]
  | c :: digest => hexLoop (hex.take j ++ byteToHex c ++ [0]) (j + 2) digest

/-- A loop of `bin_to_uuid` up to an offset: the text so far, and the bytes that
are left. -/
def uuidLoop (offset : ℕ) (text : List UInt8) : List UInt8 → List UInt8 × List UInt8
  | [] => (text, [])
  | c :: bin =>
    if text.length < offset then uuidLoop offset (text ++ byteToHex c) bin else (text, c :: bin)

end HexDigits

open HexDigits

/-- `md5_to_hex`; none if it returns 1. -/
def md5ToHexString (digest : Vector UInt8 16) (hexLen : ℕ) : Option (List UInt8) :=
  if hexLen < 33 then none else some (hexLoop [] 0 digest.toList)

/-- `bin_to_uuid`; none if an assert fails. -/
def binToUuid (bin : Vector UInt8 16) (bufLen : ℕ) : Option (List UInt8) :=
  let (text, bin) := uuidLoop 8 [] bin.toList
  let (text, bin) := uuidLoop 13 (text ++ [45]) bin
  let (text, bin) := uuidLoop 18 (text ++ [45]) bin
  let (text, bin) := uuidLoop 23 (text ++ [45]) bin
  let (text, _) := uuidLoop 36 (text ++ [45]) bin
  if 36 < bufLen ∧ text.length = 36 then some (text ++ [0]) else none

namespace HexDigits

def fromDigit (digit : UInt8) : Option UInt8 :=
  if 48 ≤ digit ∧ digit ≤ 57 then some (digit - 48)
  else if 97 ≤ digit ∧ digit ≤ 102 then some (digit - 87)
  else none

/-- The bytes that lower-case digits stand for, two for each. -/
def fromHex : List UInt8 → Option (List UInt8)
  | [] => some []
  | high :: low :: digits => do
    let byte := 16 * (← fromDigit high) + (← fromDigit low)
    some (byte :: (← fromHex digits))
  | _ => none

/-- Digits in groups of 8, 4, 4, 4 and 12 with dashes between them. -/
def grouped (hex : List UInt8) : List UInt8 :=
  hex.take 8 ++ [45] ++ (hex.drop 8).take 4 ++ [45] ++ (hex.drop 12).take 4 ++ [45] ++
    (hex.drop 16).take 4 ++ [45] ++ hex.drop 20

def withoutDashes (text : List UInt8) : List UInt8 :=
  text.take 8 ++ (text.drop 9).take 4 ++ (text.drop 14).take 4 ++ (text.drop 19).take 4 ++
    text.drop 24

theorem digits_byteToHex (c : UInt8) :
    (byteToHex c).map fromDigit = [some (c >>> 4), some ((c <<< 4) >>> 4)] ∧
      (16 : UInt8) * (c >>> 4) + ((c <<< 4) >>> 4) = c := by
  have hall : ∀ b : BitVec 8, let c : UInt8 := ⟨b⟩
      (byteToHex c).map fromDigit = [some (c >>> 4), some ((c <<< 4) >>> 4)] ∧
      (16 : UInt8) * (c >>> 4) + ((c <<< 4) >>> 4) = c := by
    decide +kernel
  exact hall c.toBitVec

theorem fromHex_flatMap (bytes : List UInt8) : fromHex (bytes.flatMap byteToHex) = some bytes := by
  induction bytes with
  | nil => rfl
  | cons c bytes ih =>
    obtain ⟨hdigits, hbyte⟩ := digits_byteToHex c
    simp only [byteToHex, map_cons, cons.injEq] at hdigits
    simp [flatMap_cons, byteToHex, fromHex, hdigits.1, hdigits.2.1, hbyte, ih]

/-- All loops come to their offsets. -/
theorem texts_eq (b : Vector UInt8 16) (m n : ℕ) :
    md5ToHexString b (33 + n) = some (md5ToHex b ++ [0]) ∧
    binToUuid b (37 + m) = some (grouped (md5ToHex b) ++ [0]) ∧
    withoutDashes (grouped (md5ToHex b)) = md5ToHex b := by
  have hlen : ¬33 + n < 33 := by omega
  have hbuf : 36 < 37 + m := by omega
  obtain ⟨⟨l⟩, hl⟩ := b
  match l, hl with
  | [_, _, _, _, _, _, _, _, _, _, _, _, _, _, _, _], _ =>
    simp [md5ToHexString, hexLoop, binToUuid, uuidLoop, byteToHex, grouped, withoutDashes,
      md5ToHex, hlen, hbuf]

end HexDigits

/-- Both texts are the digits of the bytes, so different bytes have different
texts. -/
theorem hex_texts_are_faithful (m n : ℕ) :
    (∀ b, md5ToHexString b (33 + n) = some (md5ToHex b ++ [0]) ∧
      fromHex (md5ToHex b) = some b.toList ∧
      binToUuid b (37 + m) = some (grouped (md5ToHex b) ++ [0]) ∧
      (md5ToHex b).length = 32 ∧ (grouped (md5ToHex b)).length = 36) ∧
    Function.Injective (md5ToHexString · (33 + n)) ∧
    Function.Injective (binToUuid · (37 + m)) := by
  have hread : ∀ b, fromHex (md5ToHex b) = some b.toList := fun b => fromHex_flatMap b.toList
  have hinjective : ∀ b b', md5ToHex b = md5ToHex b' → b = b' := by
    intro b b' heq
    exact Vector.toList_inj.mp (Option.some.inj ((hread b).symm.trans (heq ▸ hread b')))
  refine ⟨fun b => ⟨(texts_eq b m n).1, hread b, (texts_eq b m n).2.1, length_md5ToHex b, ?_⟩,
    fun b b' heq => ?_, fun b b' heq => ?_⟩
  · simp [grouped, length_md5ToHex]
  · simp only [(texts_eq _ m n).1] at heq
    exact hinjective b b' (by simpa using heq)
  · simp only [(texts_eq _ m n).2.1, Option.some.injEq, append_cancel_right_eq] at heq
    apply hinjective
    rw [← (texts_eq b m n).2.2, heq, (texts_eq b' m n).2.2]

end Octo
