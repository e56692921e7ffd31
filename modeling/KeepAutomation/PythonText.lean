import Mathlib.Data.Finset.Basic
import Mathlib.Data.List.Basic
import Mathlib.Tactic

/-! Python's `str` as a sequence of code points, its UTF-8 encoding and the
methods that search it, and the values that `json.loads` builds. -/
namespace PythonText

/-- A code point. The surrogates are among them: `"\ud800"` is a string. -/
abbrev CodePoint := Fin 0x110000

abbrev Str := List CodePoint

abbrev Byte := Fin 256

instance neZeroByte : NeZero 256 := ⟨by decide⟩

-- short cuts: membership in a string and in a list of strings
instance : LawfulBEq CodePoint := inferInstance

instance : LawfulBEq Str := inferInstance

def ofChar (c : Char) : CodePoint :=
  ⟨c.toNat, by
    have hvalid : Nat.isValidChar c.toNat := c.valid
    unfold Nat.isValidChar at hvalid
    omega⟩

/-- A string literal. -/
def lit (s : String) : Str := s.toList.map ofChar

theorem ofChar_injective : Function.Injective ofChar := by
  intro c d h
  have hn : (ofChar c).val = (ofChar d).val := congrArg Fin.val h
  exact Char.toNat_inj.mp hn

theorem lit_injective : Function.Injective lit := by
  intro s t h
  exact String.toList_injective (List.map_injective_iff.mpr ofChar_injective h)

section Encoding

def isSurrogate (c : CodePoint) : Bool := 0xD800 ≤ c.val && c.val ≤ 0xDFFF

/-- A string that UTF-8 can carry. -/
def IsUtf8 (s : Str) : Prop := ∀ c ∈ s, isSurrogate c = false

theorem isUtf8_iff {s : Str} : (s.any isSurrogate = false) ↔ IsUtf8 s := by
  simp only [IsUtf8, List.any_eq_false, Bool.not_eq_true]

-- over the characters of the string: `∀ c : CodePoint` alone would be decided by
-- trying every code point
instance (s : Str) : Decidable (IsUtf8 s) := decidable_of_iff _ isUtf8_iff

/-- The bytes of one code point. -/
def utf8Char (c : CodePoint) : List Byte :=
  let n := c.val
  if n < 0x80 then [Fin.ofNat 256 n]
  else if n < 0x800 then [Fin.ofNat 256 (0xC0 + n/64), Fin.ofNat 256 (0x80 + n%64)]
  else if n < 0x10000 then
    [Fin.ofNat 256 (0xE0 + n/4096), Fin.ofNat 256 (0x80 + n/64%64), Fin.ofNat 256 (0x80 + n%64)]
  else
    [Fin.ofNat 256 (0xF0 + n/262144), Fin.ofNat 256 (0x80 + n/4096%64),
      Fin.ofNat 256 (0x80 + n/64%64), Fin.ofNat 256 (0x80 + n%64)]

def utf8 (s : Str) : List Byte := s.flatMap utf8Char

/-- `s.encode("utf-8")`; nothing where Python raises a `UnicodeEncodeError`. -/
def encode (s : Str) : Option (List Byte) := if IsUtf8 s then some (utf8 s) else none

@[simp] theorem encode_eq_some {s : Str} {bytes : List Byte} :
    encode s = some bytes ↔ IsUtf8 s ∧ utf8 s = bytes := by
  unfold encode
  split
  · next h => simp only [h, true_and, Option.some.injEq]
  · next h => simp only [h, false_and, reduceCtorEq]

@[simp] theorem encode_eq_none {s : Str} : encode s = none ↔ ¬IsUtf8 s := by
  unfold encode
  split
  · next h => simp only [h, not_true_eq_false, reduceCtorEq]
  · next h => simp only [h, not_false_eq_true]

@[simp] theorem isUtf8_nil : IsUtf8 [] := fun _ hc => absurd hc List.not_mem_nil

@[simp] theorem isUtf8_append {s t : Str} : IsUtf8 (s ++ t) ↔ IsUtf8 s ∧ IsUtf8 t := by
  simp only [IsUtf8, List.mem_append, or_imp, forall_and]

@[simp] theorem isUtf8_lit (s : String) : IsUtf8 (lit s) := by
  intro c hc
  obtain ⟨d, -, rfl⟩ := List.mem_map.mp hc
  have hvalid : (ofChar d).val < 0xD800 ∨ 0xDFFF < (ofChar d).val ∧ (ofChar d).val < 0x110000 :=
    d.valid
  unfold isSurrogate
  simp only [Bool.and_eq_false_iff, decide_eq_false_iff_not]
  omega

/-- An ASCII string is its own encoding. -/
theorem utf8_ascii {s : Str} (h : ∀ c ∈ s, c.val < 0x80) :
    utf8 s = s.map fun c => Fin.ofNat 256 c.val := by
  induction s with
  | nil => rfl
  | cons c s ih =>
    have hc : utf8Char c = [Fin.ofNat 256 c.val] := by
      simp only [utf8Char, h c (List.mem_cons_self ..), if_true]
    have hs := ih fun d hd => h d (List.mem_cons_of_mem _ hd)
    rw [utf8, List.flatMap_cons, hc, List.map_cons]
    exact congrArg (_ :: ·) hs

/-- An ASCII string is read back from its bytes. -/
theorem utf8_ascii_injective {s t : Str} (hs : ∀ c ∈ s, c.val < 0x80) (ht : ∀ c ∈ t, c.val < 0x80)
    (h : utf8 s = utf8 t) : s = t := by
  have hread {r : Str} (hr : ∀ c ∈ r, c.val < 0x80) :
      (utf8 r).map (fun b => Fin.ofNat 0x110000 b.val) = r := by
    rw [utf8_ascii hr, List.map_map]
    refine (List.map_congr_left fun c hc => ?_).trans (List.map_id r)
    have hc := hr c hc
    apply Fin.ext
    change c.val%256%0x110000 = c.val
    omega
  rw [← hread hs, h, hread ht]

theorem isUtf8_ascii {s : Str} (h : ∀ c ∈ s, c.val < 0x80) : IsUtf8 s := by
  intro c hc
  have := h c hc
  simp only [isSurrogate, Bool.and_eq_false_iff, decide_eq_false_iff_not]
  omega

end Encoding

section Decimal

/-- `str(n)` of a natural number. -/
def decimal (n : ℕ) : Str := (Nat.toDigits 10 n).map ofChar

theorem decimal_injective : Function.Injective decimal := by
  intro m n h
  have hd : Nat.toDigits 10 m = Nat.toDigits 10 n := List.map_injective_iff.mpr ofChar_injective h
  calc m = Nat.ofDigitChars 10 (Nat.toDigits 10 m) 0 :=
        (Nat.ofDigitChars_toDigits (by decide) (by decide)).symm
    _ = Nat.ofDigitChars 10 (Nat.toDigits 10 n) 0 := by rw [hd]
    _ = n := Nat.ofDigitChars_toDigits (by decide) (by decide)

/-- A decimal is digits only. -/
theorem decimal_digit {n : ℕ} {c : CodePoint} (h : c ∈ decimal n) : 48 ≤ c.val ∧ c.val ≤ 57 := by
  obtain ⟨d, hd, rfl⟩ := List.mem_map.mp h
  have hdigit := Nat.isDigit_of_mem_toDigits (by decide) (by decide) hd
  simp only [Char.isDigit, Bool.and_eq_true, decide_eq_true_eq] at hdigit
  exact hdigit

@[simp] theorem isUtf8_decimal (n : ℕ) : IsUtf8 (decimal n) :=
  isUtf8_ascii fun c hc => by
    have := decimal_digit hc
    omega

end Decimal

section Classes

/-- `c.isspace()`, and the characters `strip` removes. -/
def isSpace (c : CodePoint) : Bool :=
  let n := c.val
  (9 ≤ n && n ≤ 13) || (28 ≤ n && n ≤ 32) || n == 0x85 || n == 0xa0 || n == 0x1680 ||
    (0x2000 ≤ n && n ≤ 0x200a) || n == 0x2028 || n == 0x2029 || n == 0x202f || n == 0x205f ||
    n == 0x3000

def isAsciiAlpha (c : CodePoint) : Bool :=
  (65 ≤ c.val && c.val ≤ 90) || (97 ≤ c.val && c.val ≤ 122)

def isAsciiDigit (c : CodePoint) : Bool := 48 ≤ c.val && c.val ≤ 57

/-- `str.lower`, of the ASCII letters only. -/
def lower (s : Str) : Str :=
  s.map fun c => if h : 65 ≤ c.val ∧ c.val ≤ 90 then ⟨c.val+32, by omega⟩ else c

/-- `needle in s`. -/
def contains (needle s : Str) : Bool := s.tails.any fun t => needle.isPrefixOf t

end Classes

/-- What `json.loads` returns. A dict keeps the members of the text in their
order; of repeated keys the last one counts. -/
inductive Value where
  | null
  | bool (b : Bool)
  | int (n : ℤ)
  | float (literal : String)
  | str (s : Str)
  | list (items : List Value)
  | dict (members : List (Str × Value))

/-- `d.keys()` as a set. -/
def keys (members : List (Str × Value)) : Finset Str := (members.map Prod.fst).toFinset

/-- `d.get(key)`. -/
def get (members : List (Str × Value)) (key : Str) : Option Value := members.reverse.lookup key

theorem mem_keys {members : List (Str × Value)} {key : Str} :
    key ∈ keys members ↔ ∃ v, get members key = some v := by
  have hlookup : (members.reverse.lookup key).isSome ↔ ∃ p ∈ members, p.1 = key := by
    simp only [List.lookup_isSome_iff, List.mem_reverse, beq_iff_eq, @eq_comm _ key]
  simp only [keys, get, List.mem_toFinset, List.mem_map, ← Option.isSome_iff_exists, hlookup]

end PythonText
