import Reflow.Decimal.Read
import Reflow.Json.Basic
/-!
# Identities of subtrees

The host names each unit of code by a number of 128 bits. Its text is the number in 32 hexadecimal
digits with hyphens after the eighth, twelfth, sixteenth and twentieth; other usual spellings are
read too.

## Main definitions

* `SubtreeId`: the identity of a subtree.
* `SubtreeId.text` and `SubtreeId.read?`: its written form and the forms accepted for it.

## Main results

* `SubtreeId.read?_text`: the written form of an identity is read as that identity.
-/

namespace Reflow

/-- The identity of a subtree, stable across edits. -/
structure SubtreeId where
  bits : BitVec 128
  deriving DecidableEq

namespace SubtreeId

/-- The identity with the given number, taken modulo `2 ^ 128`. -/
def ofNat (n : Nat) : SubtreeId := ⟨BitVec.ofNat 128 n⟩

/-- The number of an identity, by which subtrees are ordered. -/
def toNat (id : SubtreeId) : Nat := id.bits.toNat

theorem toNat_injective {a b : SubtreeId} (h : a.toNat = b.toNat) : a = b := by
  cases a; cases b; simp_all [toNat, BitVec.toNat_inj]

/-- The lowest `n` hexadecimal digits of a number, the highest first. -/
def hexDigits : Nat → Nat → List Char
  | 0, _ => []
  | n + 1, k => hexDigits n (k / 16) ++ [Json.hexDigit k]

/-- The hyphenated text of an identity. -/
def text (id : SubtreeId) : String :=
  let digits := hexDigits 32 id.toNat
  String.ofList (digits.take 8 ++ '-' :: (digits.drop 8).take 4 ++ '-' :: (digits.drop 12).take 4
    ++ '-' :: (digits.drop 16).take 4 ++ '-' :: digits.drop 20)

/-- The number of a list of hexadecimal digits in either letter case. -/
def hexNumber? (cs : List Char) : Option Nat :=
  cs.foldlM (fun n c => (hexDigit? c).map (16 * n + ·)) 0
where
  hexDigit? (c : Char) : Option Nat :=
    if c.isDigit then some (c.toNat - '0'.toNat)
    else if 'a' ≤ c ∧ c ≤ 'f' then some (c.toNat - 'a'.toNat + 10)
    else if 'A' ≤ c ∧ c ≤ 'F' then some (c.toNat - 'A'.toNat + 10)
    else none

/-- The identity of a text with hyphens. -/
def hyphenated? (cs : List Char) : Option SubtreeId :=
  let hyphens := [8, 13, 18, 23]
  if cs.length = 36 ∧ hyphens.all (fun i => cs[i]? = some '-') then
    (hexNumber? ((cs.zipIdx.filter fun (_, i) => i ∉ hyphens).map (·.1))).map ofNat
  else none

/-- The identity of a text: 32 digits without hyphens, or the hyphenated form, bare, in braces or
as a resource name. Letter case counts nowhere. -/
def read? (s : String) : Option SubtreeId :=
  let cs := s.toList
  let resource := "urn:uuid:".toList
  if cs.length = 32 then (hexNumber? cs).map ofNat
  else if cs.length = 38 ∧ cs.head? = some '\x7b' ∧ cs.getLast? = some '\x7d' then
    hyphenated? ((cs.drop 1).take 36)
  else if cs.length = 45 ∧ (cs.take 9).map Char.toLower = resource then hyphenated? (cs.drop 9)
  else hyphenated? cs

theorem ofNat_toNat (id : SubtreeId) : ofNat id.toNat = id := by
  cases id; simp [ofNat, toNat]

theorem hexDigit?_hexDigit (k : Nat) : hexNumber?.hexDigit? (Json.hexDigit k) = some (k % 16) := by
  have h : ∀ d, d < 16 → hexNumber?.hexDigit? (Json.hexDigit d) = some d := by decide
  have := h (k % 16) (Nat.mod_lt _ (by decide))
  simpa [Json.hexDigit] using this

theorem length_hexDigits (n k : Nat) : (hexDigits n k).length = n := by
  induction n generalizing k with
  | zero => rfl
  | succ n ih => simp [hexDigits, ih]

/-- The digits of an identity are those of its number. -/
theorem hexNumber?_hexDigits (id : SubtreeId) :
    hexNumber? (hexDigits 32 id.toNat) = some id.toNat := by
  have h (n k : Nat) : hexNumber? (hexDigits n k) = some (k % 16 ^ n) := by
    induction n generalizing k with
    | zero => simp [hexDigits, hexNumber?, Nat.mod_one]
    | succ n ih =>
      have := ih (k / 16)
      unfold hexNumber? at this ⊢
      rw [hexDigits, List.foldlM_append, this]
      simp [hexDigit?_hexDigit, Nat.pow_succ']
      rw [Nat.mod_mul]; omega
  have hid : id.toNat < 16 ^ 32 := id.bits.isLt
  rw [h, Nat.mod_eq_of_lt hid]

/-- The hyphens between groups of 8, 4, 4, 4 and 12 digits are where a hyphenated text has them. -/
theorem hyphenated?_groups {ds : List Char} (h : ds.length = 32) :
    hyphenated? (ds.take 8 ++ '-' :: (ds.drop 8).take 4 ++ '-' :: (ds.drop 12).take 4
      ++ '-' :: (ds.drop 16).take 4 ++ '-' :: ds.drop 20) = (hexNumber? ds).map ofNat := by
  match ds, h with
  | [a0, a1, a2, a3, a4, a5, a6, a7, b0, b1, b2, b3, c0, c1, c2, c3, d0, d1, d2, d3,
      e0, e1, e2, e3, e4, e5, e6, e7, e8, e9, e10, e11], _ =>
    simp [hyphenated?, List.zipIdx_cons]

/-- The text of an identity is read as that identity. -/
theorem read?_text (id : SubtreeId) : read? id.text = some id := by
  have hn := length_hexDigits 32 id.toNat
  have h := hyphenated?_groups hn
  rw [hexNumber?_hexDigits, Option.map_some, ofNat_toNat] at h
  unfold read? text
  simp only [String.toList_ofList, h]
  simp [hn]

end SubtreeId

end Reflow
