import KeepAutomation.PythonText

/-! Python's `json.dumps` and `json.loads` on flat objects: every member is a
string or null. The reader follows the scanner of the standard library, so that
what is read back is what was written unless a string holds surrogates. -/
namespace PythonJson

open PythonText

section Strings

def quoteMark : CodePoint := ofChar '"'

def backslash : CodePoint := ofChar '\\'

def letterU : CodePoint := ofChar 'u'

/-- The two-character escapes that `dumps` writes: the letter, and what it
stands for. -/
def shortEscapes : List (CodePoint × CodePoint) :=
  [(quoteMark, quoteMark), (backslash, backslash), (ofChar 'b', ofChar '\x08'),
    (ofChar 'f', ofChar '\x0c'), (ofChar 'n', ofChar '\n'), (ofChar 'r', ofChar '\r'),
    (ofChar 't', ofChar '\t')]

def shortEscape (c : CodePoint) : Option CodePoint :=
  (shortEscapes.find? fun p => p.2 = c).map Prod.fst

/-- `loads` knows one more, for the slash. -/
def unescape (letter : CodePoint) : Option CodePoint :=
  (((ofChar '/', ofChar '/') :: shortEscapes).find? fun p => p.1 = letter).map Prod.snd

def chr (n : ℕ) : CodePoint := ⟨n%0x110000, Nat.mod_lt n (by decide)⟩

def hexChar (n : ℕ) : CodePoint := chr (if n < 10 then 48+n else 87+n)

/-- A hex digit in either case. -/
def hexValue (c : CodePoint) : Option ℕ :=
  let n := c.val
  if 48 ≤ n ∧ n ≤ 57 then some (n-48)
  else if 97 ≤ n ∧ n ≤ 102 then some (n-87)
  else if 65 ≤ n ∧ n ≤ 70 then some (n-55)
  else none

/-- `{0:04x}` -/
def hex4 (n : ℕ) : Str :=
  [hexChar (n/4096%16), hexChar (n/256%16), hexChar (n/16%16), hexChar (n%16)]

def unicodeEscape (n : ℕ) : Str := backslash :: letterU :: hex4 n

/-- The surrogates of a character outside the basic plane. -/
def high (c : CodePoint) : ℕ := 0xd800 + (c.val-0x10000)/1024

def low (c : CodePoint) : ℕ := 0xdc00 + (c.val-0x10000)%1024

def isHigh (n : ℕ) : Bool := 0xd800 ≤ n && n ≤ 0xdbff

def isLow (n : ℕ) : Bool := 0xdc00 ≤ n && n ≤ 0xdfff

/-- The character of a surrogate pair. -/
def combine (n m : ℕ) : CodePoint := chr (0x10000 + 1024*(n-0xd800) + (m-0xdc00))

/-- One character in a string, with `ensure_ascii`: outside the basic plane it
takes two escapes, a surrogate pair. -/
def escapeChar (c : CodePoint) : Str :=
  match shortEscape c with
  | some letter => [backslash, letter]
  | none =>
    if 0x20 ≤ c.val ∧ c.val ≤ 0x7e then [c]
    else if c.val < 0x10000 then unicodeEscape c.val
    else unicodeEscape (high c) ++ unicodeEscape (low c)

def quoted (s : Str) : Str := quoteMark :: (s.flatMap escapeChar ++ [quoteMark])

def readHex4 : Str → Option (ℕ × Str)
  | a :: b :: c :: d :: rest =>
    match hexValue a, hexValue b, hexValue c, hexValue d with
    | some a, some b, some c, some d => some (4096*a + 256*b + 16*c + d, rest)
    | _, _, _, _ => none
  | _ => none

/-- The text after another `\u`, if that comes next. -/
def afterEscape : Str → Option Str
  | c :: d :: rest => if c = backslash ∧ d = letterU then some rest else none
  | _ => none

/-- What follows `\u`. A high surrogate takes a low one with it if that is the
next escape; a lone one stays as it is. -/
def readUnicode (s : Str) : Option (CodePoint × Str) :=
  match readHex4 s with
  | none => none
  | some (n, rest) =>
    if isHigh n then
      match afterEscape rest with
      | none => some (chr n, rest)
      | some second =>
        match readHex4 second with
        | none => none
        | some (m, rest₂) => if isLow m then some (combine n m, rest₂) else some (chr n, rest)
    else some (chr n, rest)

/-- The next character of a string. Control characters are refused (`strict`). -/
def nextChar : Str → Option (CodePoint × Str)
  | [] => none
  | c :: s =>
    if c = backslash then
      match s with
      | [] => none
      | letter :: rest =>
        if letter = letterU then readUnicode rest
        else (unescape letter).map fun d => (d, rest)
    else if c.val < 0x20 then none
    else some (c, s)

/-- `scanstring`, after the opening quote: the string and the text after it. -/
def scanString : ℕ → Str → Option (Str × Str)
  | 0, _ => none
  | n+1, s =>
    if s.head? = some quoteMark then some ([], s.tail)
    else
      match nextChar s with
      | none => none
      | some (c, t) => (scanString n t).map fun (cs, rest) => (c :: cs, rest)

def readString : Str → Option (Str × Str)
  | [] => none
  | c :: s => if c = quoteMark then scanString (s.length+1) s else none

theorem hexChar_val {n : ℕ} (h : n < 16) :
    (hexChar n).val = if n < 10 then 48+n else 87+n := by
  unfold hexChar
  have hlt : (if n < 10 then 48+n else 87+n) < 0x110000 := by
    split
    · omega
    · omega
  exact Nat.mod_eq_of_lt hlt

theorem hexValue_hexChar {n : ℕ} (h : n < 16) : hexValue (hexChar n) = some n := by
  have hval := hexChar_val h
  unfold hexValue
  dsimp only
  rw [hval]
  by_cases hten : n < 10
  · rw [if_pos hten, if_pos (by omega)]
    simp only [Nat.add_sub_cancel_left]
  · rw [if_neg hten, if_neg (by omega), if_pos (by omega)]
    simp only [Nat.add_sub_cancel_left]

theorem readHex4_hex4 {n : ℕ} (h : n < 0x10000) (rest : Str) :
    readHex4 (hex4 n ++ rest) = some (n, rest) := by
  have hd (k : ℕ) : hexValue (hexChar (k%16)) = some (k%16) :=
    hexValue_hexChar (Nat.mod_lt _ (by decide))
  have hsum : 4096*(n/4096%16) + 256*(n/256%16) + 16*(n/16%16) + n%16 = n := by omega
  simp only [hex4, List.cons_append, List.nil_append, readHex4, hd, hsum]

theorem chr_val {n : ℕ} (c : CodePoint) (h : n = c.val) : chr n = c := by
  apply Fin.ext
  rw [h]
  exact Nat.mod_eq_of_lt c.isLt

/-- The surrogates of a character are a pair that stands for it. -/
theorem high_low {c : CodePoint} (h : 0x10000 ≤ c.val) :
    isHigh (high c) = true ∧ isLow (low c) = true ∧ combine (high c) (low c) = c := by
  have hlt := c.isLt
  have hquot : (c.val-0x10000)/1024 < 1024 := by omega
  have hrem : (c.val-0x10000)%1024 < 1024 := Nat.mod_lt _ (by decide)
  refine ⟨?_, ?_, ?_⟩
  · unfold isHigh high
    rw [Bool.and_eq_true, decide_eq_true_iff, decide_eq_true_iff]
    omega
  · unfold isLow low
    rw [Bool.and_eq_true, decide_eq_true_iff, decide_eq_true_iff]
    omega
  · apply chr_val
    unfold high low
    omega

theorem high_lt (c : CodePoint) : high c < 0x10000 := by
  have hlt := c.isLt
  unfold high
  omega

theorem low_lt (c : CodePoint) : low c < 0x10000 := by
  have hrem : (c.val-0x10000)%1024 < 1024 := Nat.mod_lt _ (by decide)
  unfold low
  omega

theorem afterEscape_unicodeEscape (n : ℕ) (rest : Str) :
    afterEscape (unicodeEscape n ++ rest) = some (hex4 n ++ rest) := by
  simp only [unicodeEscape, List.cons_append, afterEscape, and_self, if_true]

/-- A unit that is no high surrogate is read from one escape. -/
theorem readUnicode_single {n : ℕ} (hn : n < 0x10000) (hhigh : isHigh n = false) (rest : Str) :
    readUnicode (hex4 n ++ rest) = some (chr n, rest) := by
  simp only [readUnicode, readHex4_hex4 hn, hhigh, Bool.false_eq_true, if_false]

/-- A high surrogate takes the low one that follows. -/
theorem readUnicode_pair {n m : ℕ} (hn : n < 0x10000) (hm : m < 0x10000) (hhigh : isHigh n = true)
    (hlow : isLow m = true) (rest : Str) :
    readUnicode (hex4 n ++ (unicodeEscape m ++ rest)) = some (combine n m, rest) := by
  simp only [readUnicode, readHex4_hex4 hn, hhigh, if_true, afterEscape_unicodeEscape,
    readHex4_hex4 hm, hlow]

theorem not_isHigh {c : CodePoint} (hc : isSurrogate c = false) : isHigh c.val = false := by
  simp only [isSurrogate, Bool.and_eq_false_iff, decide_eq_false_iff_not] at hc
  simp only [isHigh, Bool.and_eq_false_iff, decide_eq_false_iff_not]
  omega

/-- What `dumps` abbreviates, `loads` expands: every row of the table is its own
first match in both directions. -/
theorem shortEscape_some {c letter : CodePoint} (h : shortEscape c = some letter) :
    unescape letter = some c ∧ letter ≠ letterU ∧ 0x20 ≤ letter.val ∧ letter.val ≤ 0x7e := by
  have hrows : (shortEscapes.all fun p => unescape p.1 == some p.2 && p.1 != letterU &&
      (0x20 ≤ p.1.val && p.1.val ≤ 0x7e)) = true := by decide +kernel
  obtain ⟨p, hfind, rfl⟩ := Option.map_eq_some_iff.mp h
  have hc : p.2 = c := of_decide_eq_true (List.find?_some hfind :)
  have hrow := List.all_eq_true.mp hrows p (List.mem_of_find?_eq_some hfind)
  simp only [Bool.and_eq_true, beq_iff_eq, bne_iff_ne, decide_eq_true_eq, hc] at hrow
  exact ⟨hrow.1.1, hrow.1.2, hrow.2⟩

/-- The quote and the backslash are never written as they are. -/
theorem shortEscape_none {c : CodePoint} (h : shortEscape c = none) :
    c ≠ quoteMark ∧ c ≠ backslash := by
  unfold shortEscape at h
  have hmiss := List.find?_eq_none.mp (Option.map_eq_none_iff.mp h)
  constructor
  · intro hc
    apply hmiss (quoteMark, quoteMark) (by decide)
    simp only [hc, decide_true]
  · intro hc
    apply hmiss (backslash, backslash) (by decide)
    simp only [hc, decide_true]

/-- One character is read back from its escape, whatever follows. -/
theorem nextChar_escapeChar {c : CodePoint} (hc : isSurrogate c = false) (rest : Str) :
    nextChar (escapeChar c ++ rest) = some (c, rest) := by
  unfold escapeChar
  cases hshort : shortEscape c with
  | some letter =>
    obtain ⟨hback, hu, -, -⟩ := shortEscape_some hshort
    simp only [List.cons_append, List.nil_append, nextChar, if_true, hu, if_false, hback,
      Option.map_some]
  | none =>
    obtain ⟨-, hback⟩ := shortEscape_none hshort
    dsimp only
    split
    · next hprint =>
      have hctl : ¬c.val < 0x20 := by omega
      simp only [List.cons_append, List.nil_append, nextChar, hback, hctl, if_false]
    · split
      · next hbasic =>
        have hread := readUnicode_single hbasic (not_isHigh hc) rest
        rw [chr_val c rfl] at hread
        simp only [unicodeEscape, List.cons_append, nextChar, if_true, hread]
      · next hastral =>
        obtain ⟨hhigh, hlow, hpair⟩ := high_low (by omega : 0x10000 ≤ c.val)
        have hread := readUnicode_pair (high_lt c) (low_lt c) hhigh hlow rest
        rw [hpair] at hread
        rw [List.append_assoc, unicodeEscape, List.cons_append, List.cons_append]
        simp only [nextChar, if_true, hread]

/-- No escape starts with a quote, so the scanner does not stop inside. -/
theorem escapeChar_head (c : CodePoint) (rest : Str) :
    (escapeChar c ++ rest).head? ≠ some quoteMark := by
  have hback : some backslash ≠ some quoteMark := by decide
  unfold escapeChar
  cases hshort : shortEscape c with
  | some letter => exact hback
  | none =>
    dsimp only
    split
    · intro h
      exact (shortEscape_none hshort).1 (Option.some.inj h)
    · split
      · exact hback
      · exact hback

theorem scanString_escape {s : Str} (hs : IsUtf8 s) (rest : Str) {n : ℕ} (hn : s.length < n) :
    scanString n (s.flatMap escapeChar ++ quoteMark :: rest) = some (s, rest) := by
  induction s generalizing n with
  | nil =>
    cases n with
    | zero => omega
    | succ n => rfl
  | cons c s ih =>
    cases n with
    | zero => omega
    | succ n =>
      have hc : isSurrogate c = false := hs c List.mem_cons_self
      have htail : IsUtf8 s := fun d hd => hs d (List.mem_cons_of_mem _ hd)
      have hlen : s.length < n := by
        rw [List.length_cons] at hn
        omega
      rw [List.flatMap_cons, List.append_assoc, scanString, if_neg (escapeChar_head c _),
        nextChar_escapeChar hc]
      dsimp only
      rw [ih htail hlen]
      rfl

theorem length_le_escape (s : Str) : s.length ≤ (s.flatMap escapeChar).length := by
  have hone (c : CodePoint) : 1 ≤ (escapeChar c).length := by
    unfold escapeChar
    split
    · simp
    · split
      · simp
      · split
        · simp [unicodeEscape]
        · simp [unicodeEscape]
  induction s with
  | nil => exact Nat.zero_le _
  | cons c s ih =>
    have hc := hone c
    rw [List.flatMap_cons, List.length_append, List.length_cons]
    omega

/-- A string is read back from its quotation, and the text after it is left. -/
theorem readString_quoted {s : Str} (hs : IsUtf8 s) (rest : Str) :
    readString (quoted s ++ rest) = some (s, rest) := by
  have htext : quoted s ++ rest = quoteMark :: (s.flatMap escapeChar ++ quoteMark :: rest) := by
    simp only [quoted, List.cons_append, List.append_assoc, List.nil_append]
  have hlen := length_le_escape s
  rw [htext, readString, if_pos rfl]
  apply scanString_escape hs
  rw [List.length_append, List.length_cons]
  omega

theorem hexChar_printable (n : ℕ) (h : n < 16) : 0x20 ≤ (hexChar n).val ∧ (hexChar n).val ≤ 0x7e := by
  rw [hexChar_val h]
  split
  · omega
  · omega

/-- `ensure_ascii`: an escape holds printable ASCII only. -/
theorem escapeChar_printable {c d : CodePoint} (hd : d ∈ escapeChar c) :
    0x20 ≤ d.val ∧ d.val ≤ 0x7e := by
  have hback : 0x20 ≤ backslash.val ∧ backslash.val ≤ 0x7e := by decide
  have hunicode {n : ℕ} (h : d ∈ unicodeEscape n) : 0x20 ≤ d.val ∧ d.val ≤ 0x7e := by
    have hdigit (k : ℕ) := hexChar_printable (k%16) (Nat.mod_lt _ (by decide))
    simp only [unicodeEscape, hex4, List.mem_cons, List.not_mem_nil, or_false] at h
    rcases h with rfl | rfl | rfl | rfl | rfl | rfl
    · exact hback
    · decide
    · exact hdigit _
    · exact hdigit _
    · exact hdigit _
    · exact hdigit _
  unfold escapeChar at hd
  split at hd
  · next letter hshort =>
    simp only [List.mem_cons, List.not_mem_nil, or_false] at hd
    rcases hd with rfl | rfl
    · exact hback
    · exact (shortEscape_some hshort).2.2
  · split at hd
    · next hprint =>
      rw [List.mem_singleton] at hd
      rwa [hd]
    · split at hd
      · exact hunicode hd
      · rcases List.mem_append.mp hd with hd | hd
        · exact hunicode hd
        · exact hunicode hd

end Strings

section Objects

/-- A flat object, its members in their order. -/
abbrev Members := List (Str × Option Str)

def comma : CodePoint := ofChar ','

def colon : CodePoint := ofChar ':'

def openBrace : CodePoint := ofChar '\x7b'

def closeBrace : CodePoint := ofChar '\x7d'

def null : Str := [ofChar 'n', ofChar 'u', ofChar 'l', ofChar 'l']

def value : Option Str → Str
  | none => null
  | some s => quoted s

def member (m : Str × Option Str) : Str := quoted m.1 ++ colon :: value m.2

def members : Members → Str
  | [] => []
  | [m] => member m
  | m :: m₂ :: ms => member m ++ comma :: members (m₂ :: ms)

/-- `json.dumps(d, separators=(",", ":"))` -/
def dumps (ms : Members) : Str := openBrace :: (members ms ++ [closeBrace])

/-- The whitespace of JSON. -/
def isBlank (c : CodePoint) : Bool := c.val == 32 || c.val == 9 || c.val == 10 || c.val == 13

def skip (s : Str) : Str := s.dropWhile isBlank

/-- A string or null. -/
def readValue (s : Str) : Option (Option Str × Str) :=
  if s.take 4 = null then some (none, s.drop 4) else (readString s).map fun (v, rest) => (some v, rest)

def readMember (s : Str) : Option ((Str × Option Str) × Str) :=
  match readString (skip s) with
  | none => none
  | some (key, t) =>
    match skip t with
    | [] => none
    | c :: t => if c = colon then (readValue (skip t)).map fun (v, rest) => ((key, v), rest) else none

/-- The members up to the closing brace, at least one. -/
def readMembers : ℕ → Str → Option (Members × Str)
  | 0, _ => none
  | n+1, s =>
    match readMember s with
    | none => none
    | some (m, t) =>
      match skip t with
      | [] => none
      | c :: t =>
        if c = closeBrace then some ([m], t)
        else if c = comma then (readMembers n t).map fun (ms, rest) => (m :: ms, rest)
        else none

/-- `json.loads` of a flat object; nothing of any other text. -/
def loads (s : Str) : Option Members :=
  match skip s with
  | [] => none
  | c :: t =>
    if c ≠ openBrace then none
    else if (skip t).head? = some closeBrace then
      if skip (skip t).tail = [] then some [] else none
    else
      match readMembers (t.length+1) t with
      | some (ms, rest) => if skip rest = [] then some ms else none
      | none => none

/-- The strings of an object are ones that UTF-8 can carry. -/
def Encodable (ms : Members) : Prop := ∀ m ∈ ms, IsUtf8 m.1 ∧ ∀ s ∈ m.2, IsUtf8 s

theorem skip_cons {c : CodePoint} (h : isBlank c = false) (s : Str) : skip (c :: s) = c :: s := by
  unfold skip
  rw [List.dropWhile_cons_of_neg (by simp only [h, Bool.false_eq_true, not_false_eq_true])]

theorem skip_quoted (s rest : Str) : skip (quoted s ++ rest) = quoted s ++ rest := by
  rw [quoted, List.cons_append]
  exact skip_cons (by decide) _

theorem readValue_value {v : Option Str} (hv : ∀ s ∈ v, IsUtf8 s) (rest : Str) :
    readValue (skip (value v ++ rest)) = some (v, rest) := by
  cases v with
  | none => rfl
  | some s =>
    have hs : IsUtf8 s := hv s rfl
    have hquote : (quoted s ++ rest).take 4 ≠ null := by
      rw [quoted, List.cons_append, List.take_succ_cons]
      intro h
      have hhead := congrArg List.head? h
      rw [List.head?_cons] at hhead
      exact absurd hhead (by decide)
    rw [value, skip_quoted, readValue, if_neg hquote, readString_quoted hs]
    rfl

theorem readMember_member {m : Str × Option Str} (hkey : IsUtf8 m.1) (hv : ∀ s ∈ m.2, IsUtf8 s)
    (rest : Str) : readMember (member m ++ rest) = some (m, rest) := by
  have hread := readValue_value hv rest
  have hcolon := skip_cons (by decide : isBlank colon = false) (value m.2 ++ rest)
  rw [member, List.append_assoc, List.cons_append, readMember, skip_quoted, readString_quoted hkey]
  simp only [hcolon, if_true, hread, Option.map_some]

/-- The members are read back one after the other: induction along them, the
text after the closing brace generalized. -/
theorem readMembers_members {ms : Members} (hms : Encodable ms) (hne : ms ≠ []) (rest : Str) {n : ℕ}
    (hn : ms.length ≤ n) :
    readMembers n (members ms ++ closeBrace :: rest) = some (ms, rest) := by
  induction ms generalizing n with
  | nil => exact absurd rfl hne
  | cons m ms ih =>
    obtain ⟨hkey, hv⟩ := hms m List.mem_cons_self
    cases n with
    | zero => rw [List.length_cons] at hn; omega
    | succ n =>
      cases ms with
      | nil =>
        have hclose := skip_cons (by decide : isBlank closeBrace = false) rest
        rw [members, readMembers, readMember_member hkey hv]
        simp only [hclose, if_true]
      | cons m₂ ms =>
        have hlen : (m₂ :: ms).length ≤ n := by
          rw [List.length_cons] at hn
          omega
        have htail := ih (fun m hm => hms m (List.mem_cons_of_mem _ hm)) (List.cons_ne_nil _ _) hlen
        have hcomma := skip_cons (by decide : isBlank comma = false)
          (members (m₂ :: ms) ++ closeBrace :: rest)
        have hne : comma ≠ closeBrace := by decide
        rw [members, List.append_assoc, List.cons_append, readMembers, readMember_member hkey hv]
        simp only [hcomma, hne, if_false, if_true, htail, Option.map_some]

theorem members_length_le (ms : Members) : ms.length ≤ (members ms).length + 1 := by
  induction ms with
  | nil => exact Nat.zero_le _
  | cons m ms ih =>
    cases ms with
    | nil => simp only [List.length_cons, List.length_nil, zero_add, le_add_iff_nonneg_left, zero_le]
    | cons m₂ ms =>
      rw [members, List.length_append, List.length_cons, List.length_cons, List.length_cons]
      rw [List.length_cons] at ih
      have hmember : 1 ≤ (member m).length := by
        simp only [member, quoted, List.cons_append, List.length_cons]
        omega
      omega

theorem members_head {ms : Members} (hne : ms ≠ []) (rest : Str) :
    (members ms ++ rest).head? = some quoteMark := by
  cases ms with
  | nil => exact absurd rfl hne
  | cons m ms =>
    cases ms with
    | nil => rfl
    | cons m₂ ms => rfl

/-- A flat object is read back from its text. -/
theorem loads_dumps {ms : Members} (hms : Encodable ms) : loads (dumps ms) = some ms := by
  have hopen := skip_cons (by decide : isBlank openBrace = false) (members ms ++ [closeBrace])
  by_cases hne : ms = []
  · subst hne
    rfl
  · have hhead := members_head hne [closeBrace]
    have hskip : skip (members ms ++ [closeBrace]) = members ms ++ [closeBrace] := by
      obtain ⟨t, ht⟩ := List.head?_eq_some_iff.mp hhead
      rw [ht]
      exact skip_cons (by decide) t
    have hquote : some quoteMark ≠ some closeBrace := by decide
    have hlen : ms.length ≤ (members ms ++ [closeBrace]).length + 1 := by
      have := members_length_le ms
      rw [List.length_append]
      omega
    have hread := readMembers_members hms hne [] hlen
    unfold loads dumps
    rw [hopen]
    simp only [ne_eq, not_true_eq_false, if_false, hskip, hhead, hquote, hread]
    rfl

/-- Two objects with one text are one object. -/
theorem dumps_injective {ms ms' : Members} (hms : Encodable ms) (hms' : Encodable ms')
    (h : dumps ms = dumps ms') : ms = ms' := by
  have hread := loads_dumps hms
  rw [h, loads_dumps hms'] at hread
  exact (Option.some.inj hread).symm

theorem quoted_printable {s : Str} {c : CodePoint} (hc : c ∈ quoted s) :
    0x20 ≤ c.val ∧ c.val ≤ 0x7e := by
  have hquote : 0x20 ≤ quoteMark.val ∧ quoteMark.val ≤ 0x7e := by decide
  simp only [quoted, List.mem_cons, List.mem_append, List.mem_flatMap, List.not_mem_nil,
    or_false] at hc
  rcases hc with rfl | ⟨d, -, hd⟩ | rfl
  · exact hquote
  · exact escapeChar_printable hd
  · exact hquote

/-- The text of an object is printable ASCII, whatever its strings hold. -/
theorem dumps_printable {ms : Members} {c : CodePoint} (hc : c ∈ dumps ms) :
    0x20 ≤ c.val ∧ c.val ≤ 0x7e := by
  have hmember {m : Str × Option Str} (h : c ∈ member m) : 0x20 ≤ c.val ∧ c.val ≤ 0x7e := by
    simp only [member, List.mem_append, List.mem_cons] at h
    rcases h with h | rfl | h
    · exact quoted_printable h
    · decide
    · cases hv : m.2 with
      | none =>
        rw [hv] at h
        have hall : (null.all fun c => 0x20 ≤ c.val && c.val ≤ 0x7e) = true := by decide +kernel
        have hc := List.all_eq_true.mp hall c h
        simpa only [Bool.and_eq_true, decide_eq_true_eq] using hc
      | some s =>
        rw [hv] at h
        exact quoted_printable h
  have hmembers (ms : Members) (h : c ∈ members ms) : 0x20 ≤ c.val ∧ c.val ≤ 0x7e := by
    induction ms with
    | nil => cases h
    | cons m ms ih =>
      cases ms with
      | nil => exact hmember h
      | cons m₂ ms =>
        rw [members, List.mem_append, List.mem_cons] at h
        rcases h with h | rfl | h
        · exact hmember h
        · decide
        · exact ih h
  simp only [dumps, List.mem_cons, List.mem_append, List.not_mem_nil, or_false] at hc
  rcases hc with rfl | h | rfl
  · decide
  · exact hmembers ms h
  · decide

end Objects

end PythonJson
