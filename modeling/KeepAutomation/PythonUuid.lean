import Mathlib.Data.Nat.Digits.Defs
import KeepAutomation.Schema

/-! `uuid.UUID(text)`: the spellings Python takes for an id, and that the printed
one is among them. -/
namespace KeepAutomation

/-- What the interpreter's tables say: `str(float(literal))`, and the value of a
decimal digit beyond ASCII. -/
structure Python where
  floatStr : String → String
  decimal : Char → Option (Fin 10)

/-- `s.replace(old, "")`, with the number of characters still to be skipped. -/
def removeFrom (old : List Char) : ℕ → List Char → List Char
  | _, [] => []
  | k+1, _ :: s => removeFrom old k s
  | 0, c :: s =>
    if old.isPrefixOf (c :: s) then removeFrom old (old.length-1) s else c :: removeFrom old 0 s

def remove (old : String) (s : List Char) : List Char := removeFrom old.toList 0 s

/-- `s.strip(chars)` -/
def stripOf (p : Char → Bool) (s : List Char) : List Char :=
  ((s.dropWhile p).reverse.dropWhile p).reverse

def isAsciiSpace (c : Char) : Bool := (9 ≤ c.toNat && c.toNat ≤ 13) || c == ' '

/-- Digits and spaces beyond ASCII become ASCII ones before `int` reads a text. -/
def Python.ascii (py : Python) (c : Char) : Char :=
  if c.toNat < 127 then c
  else if isSpace c then ' '
  else
    match py.decimal c with
    | some d => Nat.digitChar d
    | none => '?'

/-- The value of an ASCII hex digit in either case. -/
def hexValue (c : Char) : Option ℕ :=
  if '0' ≤ c ∧ c ≤ '9' then some (c.toNat-48)
  else if 'a' ≤ c ∧ c ≤ 'f' then some (c.toNat-87)
  else if 'A' ≤ c ∧ c ≤ 'F' then some (c.toNat-55)
  else none

/-- Hex digits with single underscores between them, most significant first. -/
def hexDigitsFrom : Bool → List Char → Option (List ℕ)
  | needDigit, [] => if needDigit then none else some []
  | needDigit, c :: s =>
    match hexValue c with
    | some d => (hexDigitsFrom false s).map fun ds => d :: ds
    | none => if c = '_' ∧ needDigit = false then hexDigitsFrom true s else none

/-- An optional `0x`, behind which one underscore may stand. -/
def dropHexPrefix (s : List Char) : List Char :=
  if s.take 2 = ['0', 'x'] ∨ s.take 2 = ['0', 'X'] then
    if (s.drop 2).head? = some '_' then s.drop 3 else s.drop 2
  else s

def ofHexDigits (ds : List ℕ) : ℕ := ds.foldl (fun n d => 16*n + d) 0

/-- `int(s, 16)` -/
def Python.int16 (py : Python) (s : List Char) : Option ℤ :=
  let body := stripOf isAsciiSpace (s.map py.ascii)
  let negative := body.head? = some '-'
  let digits := if negative ∨ body.head? = some '+' then body.tail else body
  (hexDigitsFrom true (dropHexPrefix digits)).map fun ds =>
    if negative then -(ofHexDigits ds : ℤ) else ofHexDigits ds

/-- `UUID(text)`, nothing where it raises a `ValueError`. -/
def Python.uuid (py : Python) (text : String) : Option UUID :=
  let hex := (stripOf (fun c => c == '\x7b' || c == '\x7d')
    (remove "uuid:" (remove "urn:" text.toList))).filter (· ≠ '-')
  if hex.length ≠ 32 then none
  else
    match py.int16 hex with
    | none => none
    | some n => if 0 ≤ n ∧ n < 2^128 then some ⟨BitVec.ofInt 128 n⟩ else none

section RoundTrip

variable (py : Python)

theorem removeFrom_of_not_mem {c : Char} {old s : List Char} (hc : c ∉ s) :
    removeFrom (c :: old) 0 s = s := by
  induction s with
  | nil => rfl
  | cons d s ih =>
    rw [List.mem_cons, not_or] at hc
    have hprefix : (c :: old).isPrefixOf (d :: s) = false := by
      rw [List.isPrefixOf_cons_cons, beq_false_of_ne hc.1, Bool.false_and]
    rw [removeFrom, hprefix, if_neg Bool.false_ne_true, ih hc.2]

theorem stripOf_of_forall {p : Char → Bool} {s : List Char} (h : ∀ c ∈ s, p c = false) :
    stripOf p s = s := by
  have hdrop {t : List Char} (ht : ∀ c ∈ t, p c = false) : t.dropWhile p = t := by
    cases t with
    | nil => rfl
    | cons c t =>
      apply List.dropWhile_cons_of_neg
      rw [ht c List.mem_cons_self]
      exact Bool.false_ne_true
  unfold stripOf
  rw [hdrop h, hdrop fun c hc => h c (List.mem_reverse.mp hc), List.reverse_reverse]

/-- A printed digit reads back as its value, and is none of the characters the
reader treats apart. -/
theorem hexDigit_facts (n : Fin 16) :
    hexValue (hexDigit n) = some n.val ∧ (hexDigit n).toNat < 127 ∧
      isAsciiSpace (hexDigit n) = false ∧ hexDigit n ∉ ['-', '+', 'x', 'X', '\x7b', '\x7d'] := by
  revert n
  decide +kernel

theorem UUID.mem_hex {u : UUID} {c : Char} (hc : c ∈ u.hex) : ∃ n, c = hexDigit n := by
  obtain ⟨i, -, hi⟩ := List.mem_map.mp hc
  exact ⟨_, hi.symm⟩

theorem hexDigitsFrom_digits (ns : List (Fin 16)) (needDigit : Bool)
    (h : needDigit = true → ns ≠ []) :
    hexDigitsFrom needDigit (ns.map hexDigit) = some (ns.map Fin.val) := by
  induction ns generalizing needDigit with
  | nil =>
    cases needDigit with
    | true => exact absurd rfl (h rfl)
    | false => rfl
  | cons n ns ih =>
    have htail := ih false fun hfalse => absurd hfalse Bool.false_ne_true
    simp only [List.map_cons, hexDigitsFrom, (hexDigit_facts n).1, htail, Option.map_some]

/-- The digit of an id at a place, as a quotient and a remainder. -/
theorem UUID.nibble_val (u : UUID) (i : ℕ) :
    (u.nibble i).val = u.int.toNat/16^(31-i)%16 := by
  have hpow : 2^(4*(31-i)) = 16^(31-i) := by
    rw [pow_mul]
    rfl
  simp only [UUID.nibble, BitVec.extractLsb'_toNat, Nat.shiftRight_eq_div_pow, hpow]

/-- The first `k` digits of an id are its value without the other ones: induction
along the digits, the last one split off. -/
theorem UUID.ofHexDigits_take (u : UUID) {k : ℕ} (hk : k ≤ 32) :
    ofHexDigits ((List.range k).map fun i => (u.nibble i).val) = u.int.toNat/16^(32-k) := by
  induction k with
  | zero =>
    have hlt : u.int.toNat < 16^32 := u.int.isLt
    rw [Nat.div_eq_of_lt hlt]
    rfl
  | succ k ih =>
    have hprev := ih (by omega)
    have hexp : 32-k = 31-k+1 := by omega
    have hnext : 32-(k+1) = 31-k := by omega
    unfold ofHexDigits at hprev ⊢
    calc _ = 16*(u.int.toNat/16^(32-k)) + (u.nibble k).val := by
          rw [List.range_succ, List.map_append, List.foldl_append, hprev]
          rfl
      _ = 16*(u.int.toNat/16^(31-k)/16) + u.int.toNat/16^(31-k)%16 := by
          rw [u.nibble_val, hexp, pow_succ, Nat.div_div_eq_div_mul]
      _ = u.int.toNat/16^(32-(k+1)) := by
          rw [Nat.div_add_mod, hnext]

/-- Without its dashes a printed id is its digits. -/
theorem UUID.str_digits (u : UUID) : u.str.toList.filter (· ≠ '-') = u.hex := by
  have hdash {l : List Char} (hl : l ⊆ u.hex) : l.filter (· ≠ '-') = l := by
    apply List.filter_eq_self.mpr
    intro c hc
    obtain ⟨n, rfl⟩ := UUID.mem_hex (hl hc)
    have hn := (hexDigit_facts n).2.2.2
    simp only [List.mem_cons, not_or] at hn
    exact decide_eq_true hn.1
  have hgroup (k n : ℕ) : (u.hex.drop k).take n ⊆ u.hex :=
    List.Subset.trans (List.take_subset n _) (List.drop_subset k _)
  have hjoin (k n : ℕ) : (u.hex.drop k).take n ++ u.hex.drop (k+n) = u.hex.drop k := by
    rw [← List.drop_drop, List.take_append_drop]
  have hcut {s : List Char} : ('-' :: s).filter (· ≠ '-') = s.filter (· ≠ '-') :=
    List.filter_cons_of_neg (by simp)
  rw [UUID.str, String.toList_ofList]
  simp only [List.filter_append, hcut]
  rw [hdash (List.take_subset 8 _), hdash (hgroup 8 4), hdash (hgroup 12 4), hdash (hgroup 16 4),
    hdash (List.drop_subset 20 _), hjoin 16 4, hjoin 12 4, hjoin 8 4, List.take_append_drop]

/-- `int` reads the digits of an id as they are. -/
theorem Python.int16_hex (u : UUID) : py.int16 u.hex = some (u.int.toNat : ℤ) := by
  have hdigits : u.hex = (List.range 32).map (hexDigit ∘ u.nibble) := rfl
  have hascii : u.hex.map py.ascii = u.hex := by
    have hid : ∀ c ∈ u.hex, py.ascii c = id c := by
      intro c hc
      obtain ⟨n, rfl⟩ := UUID.mem_hex hc
      exact if_pos (hexDigit_facts n).2.1
    rw [List.map_congr_left hid, List.map_id]
  have hstrip : stripOf isAsciiSpace u.hex = u.hex := by
    apply stripOf_of_forall
    intro c hc
    obtain ⟨n, rfl⟩ := UUID.mem_hex hc
    exact (hexDigit_facts n).2.2.1
  have hhead (c : Char) (hc : c ∈ ['-', '+', 'x', 'X', '\x7b', '\x7d']) : c ∉ u.hex := by
    intro hmem
    obtain ⟨n, rfl⟩ := UUID.mem_hex hmem
    exact (hexDigit_facts n).2.2.2 hc
  have hsign (c : Char) (hc : c ∈ ['-', '+', 'x', 'X', '\x7b', '\x7d']) : u.hex.head? ≠ some c :=
    fun h => hhead c hc (List.mem_of_mem_head? h)
  have hprefix : dropHexPrefix u.hex = u.hex := by
    apply if_neg
    rw [not_or]
    constructor
    · intro h
      apply hhead 'x' (by decide)
      apply List.mem_of_mem_take (i := 2)
      rw [h]
      decide
    · intro h
      apply hhead 'X' (by decide)
      apply List.mem_of_mem_take (i := 2)
      rw [h]
      decide
  have hread : hexDigitsFrom true u.hex = some ((List.range 32).map fun i => (u.nibble i).val) := by
    have hne : (List.range 32).map u.nibble ≠ [] := by
      intro h
      have hlen := congrArg List.length h
      rw [List.length_map, List.length_range] at hlen
      exact absurd hlen (by decide)
    have hall := hexDigitsFrom_digits ((List.range 32).map u.nibble) true fun _ => hne
    rwa [List.map_map, List.map_map, ← hdigits] at hall
  have hvalue := u.ofHexDigits_take (le_refl 32)
  rw [Nat.sub_self, pow_zero, Nat.div_one] at hvalue
  unfold Python.int16
  simp only [hascii, hstrip, hsign '-' (by decide), hsign '+' (by decide), or_self, if_false,
    hprefix, hread, Option.map_some, hvalue]

/-- A printed id is read back. -/
theorem Python.uuid_str (u : UUID) : py.uuid u.str = some u := by
  have hchar {c : Char} (hc : c ∈ u.str.toList) : c = '-' ∨ ∃ n, c = hexDigit n := u.mem_str hc
  -- neither `urn:` nor `uuid:` starts with a hex digit or a dash
  have hletter : 'u' ∉ u.str.toList := by
    intro hmem
    rcases hchar hmem with h | ⟨n, h⟩
    · exact absurd h (by decide)
    · have hvalue := (hexDigit_facts n).1
      rw [← h] at hvalue
      exact absurd hvalue (by simp [hexValue])
  have hurn : remove "urn:" u.str.toList = u.str.toList := removeFrom_of_not_mem hletter
  have huuid : remove "uuid:" u.str.toList = u.str.toList := removeFrom_of_not_mem hletter
  have hbraces : stripOf (fun c => c == '\x7b' || c == '\x7d') u.str.toList = u.str.toList := by
    apply stripOf_of_forall
    intro c hc
    rcases hchar hc with rfl | ⟨n, rfl⟩
    · decide
    · have hn := (hexDigit_facts n).2.2.2
      simp only [List.mem_cons, not_or] at hn
      simp only [beq_false_of_ne hn.2.2.2.2.1, beq_false_of_ne hn.2.2.2.2.2.1, Bool.or_self]
  have hrange : (0 : ℤ) ≤ u.int.toNat ∧ (u.int.toNat : ℤ) < 2^128 := by
    have hlt := u.int.isLt
    omega
  unfold Python.uuid
  simp only [hurn, huuid, hbraces, u.str_digits, u.hex_length, ne_eq, not_true_eq_false, if_false,
    py.int16_hex, hrange, and_self, if_true]
  rw [BitVec.ofInt_natCast, BitVec.ofNat_toNat, BitVec.setWidth_eq]

end RoundTrip

end KeepAutomation
