import KeepAutomation.PythonText
import Mathlib.Data.List.DropRight

/-! `urllib.parse`: splitting a URL, and percent-encoding. A URL with an
authority is its origin and a tail; what is appended to it goes into the tail. -/
namespace PythonUrl

open PythonText

section Splitting

/-- `s.partition(sep)`: what stands before the first separator, whether there is
one, and what follows it. -/
def partition (sep : CodePoint) (s : Str) : Str × Bool × Str :=
  (s.takeWhile (· ≠ sep), decide (sep ∈ s), (s.dropWhile (· ≠ sep)).tail)

/-- `s.rpartition(sep)`: the same at the last separator. -/
def rpartition (sep : CodePoint) (s : Str) : Str × Bool × Str :=
  if sep ∈ s then ((s.rdropWhile (· ≠ sep)).dropLast, true, s.rtakeWhile (· ≠ sep)) else ([], false, s)

def colon : CodePoint := ofChar ':'

def slash : CodePoint := ofChar '/'

def questionMark : CodePoint := ofChar '?'

def hash : CodePoint := ofChar '#'

/-- C0 controls and space, which `urlsplit` strips from the left. -/
def isC0OrSpace (c : CodePoint) : Bool := c.val ≤ 0x20

/-- Tab and newlines, which `urlsplit` removes everywhere. -/
def isUnsafe (c : CodePoint) : Bool := c.val == 9 || c.val == 10 || c.val == 13

def isSchemeChar (c : CodePoint) : Bool :=
  isAsciiAlpha c || isAsciiDigit c || c == ofChar '+' || c == ofChar '-' || c == ofChar '.'

/-- The authority ends at the first of these. -/
def isDelimiter (c : CodePoint) : Bool := c == slash || c == questionMark || c == hash

def isQueryStart (c : CodePoint) : Bool := c == questionMark || c == hash

structure SplitResult where
  scheme : Str
  netloc : Str
  path : Str
  query : Str
  fragment : Str
  deriving DecidableEq

def splitScheme (url : Str) : Str × Str :=
  match partition colon url with
  | (head, found, rest) =>
    if found && head.head?.any isAsciiAlpha && head.all isSchemeChar then (lower head, rest)
    else ([], url)

/-- The authority behind `//`, and the rest of the URL. -/
def splitNetloc (url : Str) : Str × Str :=
  match url with
  | a :: b :: rest =>
    if a = slash ∧ b = slash then (rest.takeWhile (!isDelimiter ·), rest.dropWhile (!isDelimiter ·))
    else ([], url)
  | _ => ([], url)

def mixedBrackets (netloc : Str) : Bool := decide (ofChar '[' ∈ netloc) != decide (ofChar ']' ∈ netloc)

/-- The rest of a URL behind its authority. -/
def splitRest (scheme netloc rest : Str) : SplitResult :=
  match partition hash rest with
  | (rest, _, fragment) =>
    match partition questionMark rest with
    | (path, _, query) => ⟨scheme, netloc, path, query, fragment⟩

-- the address between the brackets, and the check of the authority's characters
-- under NFKC normalization
variable (netlocValid : Str → Bool)

/-- `urlsplit`; nothing where Python raises a `ValueError`. -/
def urlsplit (url : Str) : Option SplitResult :=
  match splitScheme ((url.dropWhile isC0OrSpace).filter (!isUnsafe ·)) with
  | (scheme, rest) =>
    match splitNetloc rest with
    | (netloc, rest) =>
      if netloc ≠ [] ∧ (mixedBrackets netloc = true ∨ netlocValid netloc = false) then none
      else some (splitRest scheme netloc rest)

/-- Host and port: the authority without the user information. -/
def SplitResult.hostinfo (url : SplitResult) : Str :=
  match rpartition (ofChar '@') url.netloc with
  | (_, _, hostinfo) =>
    match partition (ofChar '[') hostinfo with
    | (_, true, bracketed) => (partition (ofChar ']') bracketed).1
    | (_, false, _) => (partition colon hostinfo).1

/-- `url.hostname`; the zone behind `%` keeps its case. -/
def SplitResult.hostname (url : SplitResult) : Option Str :=
  if url.hostinfo = [] then none
  else
    match partition (ofChar '%') url.hostinfo with
    | (host, found, zone) => some (lower host ++ if found then ofChar '%' :: zone else [])

def SplitResult.username (url : SplitResult) : Option Str :=
  match rpartition (ofChar '@') url.netloc with
  | (userinfo, true, _) => some (partition colon userinfo).1
  | (_, false, _) => none

def SplitResult.password (url : SplitResult) : Option Str :=
  match rpartition (ofChar '@') url.netloc with
  | (userinfo, true, _) =>
    match partition colon userinfo with
    | (_, true, password) => some password
    | (_, false, _) => none
  | (_, false, _) => none

end Splitting

section Origins

/-- Scheme and authority of a URL as they stand in its text. -/
structure Origin where
  controls : Str
  scheme : Str
  netloc : Str
  controls_c0 : ∀ c ∈ controls, isC0OrSpace c = true
  controls_safe : ∀ c ∈ controls, isUnsafe c = false
  scheme_alpha : scheme.head?.any isAsciiAlpha = true
  scheme_chars : scheme.all isSchemeChar = true
  netloc_ne_nil : netloc ≠ []
  netloc_chars : ∀ c ∈ netloc, isDelimiter c = false
  netloc_safe : ∀ c ∈ netloc, isUnsafe c = false

def Origin.text (o : Origin) : Str := o.controls ++ (o.scheme ++ colon :: slash :: slash :: o.netloc)

/-- What may follow an origin: nothing, or something led by a delimiter. -/
def IsTail (tail : Str) : Prop := ∀ c ∈ tail.head?, isDelimiter c = true

theorem takeWhile_stop {α : Type} {p : α → Bool} {l m : List α} (hl : ∀ a ∈ l, p a = true)
    (hm : ∀ a ∈ m.head?, p a = false) : (l ++ m).takeWhile p = l ∧ (l ++ m).dropWhile p = m := by
  have hstop : m.takeWhile p = [] ∧ m.dropWhile p = m := by
    cases m with
    | nil => exact ⟨rfl, rfl⟩
    | cons a m =>
      have ha := hm a rfl
      rw [List.takeWhile_cons, List.dropWhile_cons, ha]
      exact ⟨rfl, rfl⟩
  rw [List.takeWhile_append_of_pos hl, List.dropWhile_append_of_pos hl, hstop.1, hstop.2]
  exact ⟨List.append_nil l, rfl⟩

theorem isSchemeChar_facts {c : CodePoint} (h : isSchemeChar c = true) :
    c ≠ colon ∧ isUnsafe c = false ∧ isDelimiter c = false := by
  have hval : c.val = 43 ∨ c.val = 45 ∨ c.val = 46 ∨ (48 ≤ c.val ∧ c.val ≤ 57) ∨
      (65 ≤ c.val ∧ c.val ≤ 90) ∨ (97 ≤ c.val ∧ c.val ≤ 122) := by
    simp only [isSchemeChar, isAsciiAlpha, isAsciiDigit, Bool.or_eq_true, Bool.and_eq_true,
      decide_eq_true_eq, beq_iff_eq] at h
    rcases h with (((h | h) | h) | h) | h
    · omega
    · omega
    all_goals
      rw [h]
      decide
  refine ⟨?_, ?_, ?_⟩
  · rintro rfl
    have hc : colon.val = 58 := rfl
    omega
  · simp only [isUnsafe, Bool.or_eq_false_iff, beq_eq_false_iff_ne]
    omega
  · have hne (d : CodePoint) (hd : d.val = 47 ∨ d.val = 63 ∨ d.val = 35) : (c == d) = false := by
      rw [beq_eq_false_iff_ne]
      rintro rfl
      omega
    simp only [isDelimiter, hne slash (Or.inl rfl), hne questionMark (Or.inr (Or.inl rfl)),
      hne hash (Or.inr (Or.inr rfl)), Bool.or_self]

theorem Origin.scheme_ne_nil (o : Origin) : o.scheme ≠ [] := by
  intro h
  have := o.scheme_alpha
  rw [h] at this
  simp at this

theorem Origin.text_safe (o : Origin) : ∀ c ∈ o.text, isUnsafe c = false := by
  intro c hc
  simp only [Origin.text, List.mem_append, List.mem_cons] at hc
  rcases hc with hc | hc | rfl | rfl | rfl | hc
  · exact o.controls_safe c hc
  · exact (isSchemeChar_facts (List.all_eq_true.mp o.scheme_chars c hc)).2.1
  · rfl
  · rfl
  · rfl
  · exact o.netloc_safe c hc

/-- An origin's text never starts a query. -/
theorem Origin.text_noQuery (o : Origin) : ∀ c ∈ o.text, isQueryStart c = false := by
  have hdelimiter {c : CodePoint} (h : isDelimiter c = false) : isQueryStart c = false := by
    simp only [isDelimiter, Bool.or_eq_false_iff] at h
    simp only [isQueryStart, h.1.2, h.2, Bool.or_self]
  intro c hc
  simp only [Origin.text, List.mem_append, List.mem_cons] at hc
  rcases hc with hc | hc | rfl | rfl | rfl | hc
  · have hc0 := o.controls_c0 c hc
    simp only [isC0OrSpace, decide_eq_true_eq] at hc0
    simp only [isQueryStart, Bool.or_eq_false_iff, beq_eq_false_iff_ne]
    constructor
    · rintro rfl
      exact absurd hc0 (by decide)
    · rintro rfl
      exact absurd hc0 (by decide)
  · exact hdelimiter (isSchemeChar_facts (List.all_eq_true.mp o.scheme_chars c hc)).2.2
  · rfl
  · rfl
  · rfl
  · exact hdelimiter (o.netloc_chars c hc)

/-- `rstrip` of a character stops at a text that does not end in it. -/
theorem rdropWhile_append {α : Type} {p : α → Bool} {l : List α} (hl : ∀ a ∈ l.getLast?, p a = false)
    (m : List α) : (l ++ m).rdropWhile p = l ++ m.rdropWhile p := by
  induction m using List.reverseRecOn with
  | nil =>
    rw [List.append_nil, List.rdropWhile_nil, List.append_nil, List.rdropWhile_eq_self_iff]
    intro hne
    rw [hl _ (List.getLast?_eq_getLast_of_ne_nil hne)]
    exact Bool.false_ne_true
  | append_singleton m a ih =>
    rw [← List.append_assoc, List.rdropWhile_concat, List.rdropWhile_concat, ih]
    split
    · rfl
    · rw [List.append_assoc]

variable (netlocValid : Str → Bool)

/-- The checks of an authority that is not empty. -/
def NetlocOk (netloc : Str) : Prop := mixedBrackets netloc = false ∧ netlocValid netloc = true

theorem splitScheme_origin {scheme rest : Str} (halpha : scheme.head?.any isAsciiAlpha = true)
    (hchars : scheme.all isSchemeChar = true) :
    splitScheme (scheme ++ colon :: rest) = (lower scheme, rest) := by
  have hne : ∀ c ∈ scheme, decide (c ≠ colon) = true := fun c hc =>
    decide_eq_true (isSchemeChar_facts (List.all_eq_true.mp hchars c hc)).1
  obtain ⟨htake, hdrop⟩ := takeWhile_stop (m := colon :: rest) hne (by simp)
  simp only [splitScheme, partition, htake, hdrop, List.mem_append, List.mem_cons, true_or, or_true,
    decide_true, halpha, hchars, Bool.and_self, if_true, List.tail_cons]

theorem splitNetloc_origin {netloc tail : Str} (hchars : ∀ c ∈ netloc, isDelimiter c = false)
    (htail : IsTail tail) : splitNetloc (slash :: slash :: (netloc ++ tail)) = (netloc, tail) := by
  obtain ⟨htake, hdrop⟩ := takeWhile_stop (p := (!isDelimiter ·)) (l := netloc) (m := tail)
    (fun c hc => by simp only [hchars c hc, Bool.not_false])
    (fun c hc => by simp only [htail c hc, Bool.not_true])
  simp only [splitNetloc, and_self, if_true, htake, hdrop]

/-- A URL with an authority splits into its origin and its tail. -/
theorem urlsplit_origin (o : Origin) {tail : Str} (htail : IsTail tail)
    (hsafe : ∀ c ∈ tail, isUnsafe c = false) (hok : NetlocOk netlocValid o.netloc) :
    urlsplit netlocValid (o.text ++ tail) = some (splitRest (lower o.scheme) o.netloc tail) := by
  have htext : o.text ++ tail =
      o.controls ++ (o.scheme ++ colon :: slash :: slash :: (o.netloc ++ tail)) := by
    simp only [Origin.text, List.append_assoc, List.cons_append]
  -- the stripping from the left ends at the scheme's first letter
  have hhead : ∀ c ∈ (o.scheme ++ colon :: slash :: slash :: (o.netloc ++ tail)).head?,
      isC0OrSpace c = false := by
    have halpha := o.scheme_alpha
    cases hs : o.scheme with
    | nil => exact absurd hs o.scheme_ne_nil
    | cons a rest =>
      rw [hs] at halpha
      simp only [List.head?_cons, Option.any_some, isAsciiAlpha, Bool.or_eq_true, Bool.and_eq_true,
        decide_eq_true_eq] at halpha
      intro c hc
      obtain rfl : a = c := Option.some.inj hc
      simp only [isC0OrSpace, decide_eq_false_iff_not]
      omega
  have hdrop := (takeWhile_stop o.controls_c0 hhead).2
  -- and nothing is removed behind it
  have hall : ∀ c ∈ o.scheme ++ colon :: slash :: slash :: (o.netloc ++ tail), (!isUnsafe c) = true := by
    intro c hc
    have hmem : c ∈ o.text ++ tail := htext ▸ List.mem_append_right _ hc
    rcases List.mem_append.mp hmem with h | h
    · simp only [o.text_safe c h, Bool.not_false]
    · simp only [hsafe c h, Bool.not_false]
  unfold urlsplit
  rw [htext, hdrop, List.filter_eq_self.mpr hall, splitScheme_origin o.scheme_alpha o.scheme_chars]
  simp only [splitNetloc_origin o.netloc_chars htail]
  rw [if_neg]
  rintro ⟨-, h | h⟩
  · rw [hok.1] at h
    simp at h
  · rw [hok.2] at h
    simp at h

theorem splitScheme_cases {url scheme rest : Str} (h : splitScheme url = (scheme, rest))
    (hne : scheme ≠ []) : ∃ head, url = head ++ colon :: rest ∧ scheme = lower head ∧
      head.head?.any isAsciiAlpha = true ∧ head.all isSchemeChar = true := by
  simp only [splitScheme, partition, Bool.and_eq_true, decide_eq_true_eq] at h
  split at h
  · next hfound =>
    obtain ⟨⟨hcolon, halpha⟩, hchars⟩ := hfound
    simp only [Prod.mk.injEq] at h
    obtain ⟨rfl, rfl⟩ := h
    refine ⟨url.takeWhile (· ≠ colon), ?_, rfl, halpha, hchars⟩
    have hdrop : url.dropWhile (· ≠ colon) ≠ [] := by
      intro hnil
      have := List.dropWhile_eq_nil_iff.mp hnil colon hcolon
      simp at this
    obtain ⟨c, rest, hrest⟩ := List.exists_cons_of_ne_nil hdrop
    have hc : decide (c ≠ colon) = false := by
      have := List.head_dropWhile_not (· ≠ colon) hdrop
      simpa only [hrest, List.head_cons] using this
    obtain rfl : c = colon := by simpa using hc
    rw [hrest, List.tail_cons, ← hrest, List.takeWhile_append_dropWhile]
  · simp only [Prod.mk.injEq] at h
    exact absurd h.1.symm hne

theorem splitNetloc_cases {url netloc rest : Str} (h : splitNetloc url = (netloc, rest))
    (hne : netloc ≠ []) : url = slash :: slash :: (netloc ++ rest) ∧
      (∀ c ∈ netloc, isDelimiter c = false) ∧ IsTail rest := by
  unfold splitNetloc at h
  split at h
  · next a b tail =>
    split at h
    · next hslash =>
      simp only [Prod.mk.injEq] at h
      obtain ⟨rfl, rfl⟩ := h
      refine ⟨?_, ?_, ?_⟩
      · rw [hslash.1, hslash.2, List.takeWhile_append_dropWhile]
      · intro c hc
        have := List.mem_takeWhile_imp hc
        simpa using this
      · intro c hc
        have := List.head?_dropWhile_not (!isDelimiter ·) tail
        rw [Option.mem_def.mp hc] at this
        simpa using this
    · simp only [Prod.mk.injEq] at h
      exact absurd h.1.symm hne
  · simp only [Prod.mk.injEq] at h
    exact absurd h.1.symm hne

/-- What a URL with a scheme and an authority consists of. -/
theorem origin_of_urlsplit {url : Str} {p : SplitResult} (h : urlsplit netlocValid url = some p)
    (hscheme : p.scheme ≠ []) (hnetloc : p.netloc ≠ []) (hsafe : ∀ c ∈ url, isUnsafe c = false) :
    ∃ (o : Origin) (tail : Str), url = o.text ++ tail ∧ IsTail tail ∧ NetlocOk netlocValid o.netloc ∧
      p = splitRest (lower o.scheme) o.netloc tail := by
  have hfilter : (url.dropWhile isC0OrSpace).filter (!isUnsafe ·) = url.dropWhile isC0OrSpace := by
    apply List.filter_eq_self.mpr
    intro c hc
    simp only [hsafe c ((List.dropWhile_suffix _).mem hc), Bool.not_false]
  have hurl : url = url.takeWhile isC0OrSpace ++ url.dropWhile isC0OrSpace :=
    List.takeWhile_append_dropWhile.symm
  unfold urlsplit at h
  rw [hfilter] at h
  generalize url.dropWhile isC0OrSpace = u at h hurl
  cases hs : splitScheme u with
  | mk scheme rest =>
    cases hn : splitNetloc rest with
    | mk netloc tail =>
      simp only [hs, hn] at h
      split at h
      · simp at h
      · next hok =>
        obtain rfl : splitRest scheme netloc tail = p := Option.some.inj h
        have hnetloc' : netloc ≠ [] := hnetloc
        obtain ⟨head, hu, rfl, halpha, hchars⟩ := splitScheme_cases hs hscheme
        obtain ⟨hrest, hdelimiters, htail⟩ := splitNetloc_cases hn hnetloc'
        have hmem : ∀ c ∈ netloc, c ∈ url := by
          intro c hc
          rw [hurl, hu, hrest]
          simp only [List.mem_append, List.mem_cons, hc, true_or, or_true]
        refine ⟨{ controls := url.takeWhile isC0OrSpace
                  scheme := head
                  netloc := netloc
                  controls_c0 := fun c hc => List.mem_takeWhile_imp hc
                  controls_safe := fun c hc => hsafe c ((List.takeWhile_prefix _).mem hc)
                  scheme_alpha := halpha
                  scheme_chars := hchars
                  netloc_ne_nil := hnetloc'
                  netloc_chars := hdelimiters
                  netloc_safe := fun c hc => hsafe c (hmem c hc) }, tail, ?_, htail, ?_, rfl⟩
        · simp only [Origin.text, List.append_assoc, List.cons_append]
          rw [← hrest, ← hu]
          exact hurl
        · push Not at hok
          have := hok hnetloc'
          exact ⟨Bool.not_eq_true _ ▸ this.1, Bool.not_eq_false _ ▸ this.2⟩

theorem splitRest_path (scheme netloc tail : Str) :
    (splitRest scheme netloc tail).path = tail.takeWhile (!isQueryStart ·) := by
  simp only [splitRest, partition, List.takeWhile_takeWhile]
  congr 1
  funext c
  by_cases hq : c = questionMark
  · simp [isQueryStart, hq]
  · by_cases hh : c = hash
    · simp [isQueryStart, hh]
    · simp [isQueryStart, hq, hh]

/-- The path of a URL is its tail up to the query. -/
theorem urlsplit_path (o : Origin) {tail : Str} (htail : IsTail tail)
    (hsafe : ∀ c ∈ tail, isUnsafe c = false) (hok : NetlocOk netlocValid o.netloc) :
    (urlsplit netlocValid (o.text ++ tail)).map SplitResult.path =
      some (tail.takeWhile (!isQueryStart ·)) := by
  rw [urlsplit_origin netlocValid o htail hsafe hok, Option.map_some, splitRest_path]

end Origins

section Quoting

def isUnreserved (b : Byte) : Bool :=
  (65 ≤ b.val && b.val ≤ 90) || (97 ≤ b.val && b.val ≤ 122) || (48 ≤ b.val && b.val ≤ 57) ||
    b.val == 95 || b.val == 46 || b.val == 45 || b.val == 126

def percent : CodePoint := ofChar '%'

/-- An ASCII byte as a character. -/
def ofByte (b : Byte) : CodePoint := ⟨b.val, by omega⟩

/-- An uppercase hex digit. -/
def hexUpper (n : ℕ) : CodePoint := Fin.ofNat 0x110000 (if n < 10 then 48+n else 55+n)

variable (safe : List Byte)

def quoteByte (b : Byte) : Str :=
  if isUnreserved b || decide (b ∈ safe) then [ofByte b]
  else [percent, hexUpper (b.val/16), hexUpper (b.val%16)]

/-- `quote(s, safe)`; nothing where Python raises a `UnicodeEncodeError`. -/
def quote (s : Str) : Option Str := (encode s).map fun bytes => bytes.flatMap (quoteByte safe)

def hexValue (b : Byte) : Option ℕ :=
  if 48 ≤ b.val ∧ b.val ≤ 57 then some (b.val-48)
  else if 65 ≤ b.val ∧ b.val ≤ 70 then some (b.val-55)
  else if 97 ≤ b.val ∧ b.val ≤ 102 then some (b.val-87)
  else none

def unquoteBytes : List Byte → List Byte
  | [] => []
  | [b] => [b]
  | [b, c] => [b, c]
  | b :: c :: d :: rest =>
    if b.val = 37 then
      match hexValue c, hexValue d with
      | some high, some low => Fin.ofNat 256 (16*high+low) :: unquoteBytes rest
      | _, _ => b :: unquoteBytes (c :: d :: rest)
    else b :: unquoteBytes (c :: d :: rest)

/-- `unquote_to_bytes(s)`. -/
def unquoteToBytes (s : Str) : Option (List Byte) := (encode s).map unquoteBytes

/-- Safe characters of a path: ASCII, and neither an escape nor the start of a query. -/
def SafeBytes : Prop := ∀ b ∈ safe, b.val < 0x80 ∧ b.val ≠ 37 ∧ isQueryStart (ofByte b) = false ∧
  isUnsafe (ofByte b) = false

theorem unquoteBytes_cons {b : Byte} (h : b.val ≠ 37) (rest : List Byte) :
    unquoteBytes (b :: rest) = b :: unquoteBytes rest := by
  match rest with
  | [] => rfl
  | [_] => rfl
  | _ :: _ :: _ => rw [unquoteBytes, if_neg h]

/-- A character that a request path may hold as it is. -/
def IsPathChar (c : CodePoint) : Prop := c.val < 0x80 ∧ isQueryStart c = false ∧ isUnsafe c = false

theorem isUnreserved_facts : ∀ b : Byte, isUnreserved b = true →
    b.val < 0x80 ∧ b.val ≠ 37 ∧ isQueryStart (ofByte b) = false ∧ isUnsafe (ofByte b) = false := by
  decide +kernel

theorem hexUpper_facts : ∀ n : Fin 16, (hexUpper n.val).val < 0x80 ∧
    isQueryStart (hexUpper n.val) = false ∧ isUnsafe (hexUpper n.val) = false ∧
    hexValue (Fin.ofNat 256 (hexUpper n.val).val) = some n.val := by
  decide +kernel

theorem quoteByte_pathChar (hsafe : SafeBytes safe) (b : Byte) : ∀ c ∈ quoteByte safe b, IsPathChar c := by
  intro c hc
  unfold quoteByte at hc
  split at hc
  · next hb =>
    rw [List.mem_singleton.mp hc]
    rcases Bool.or_eq_true _ _ ▸ hb with h | h
    · have hf := isUnreserved_facts b h
      exact ⟨hf.1, hf.2.2⟩
    · have hf := hsafe b (of_decide_eq_true h)
      exact ⟨hf.1, hf.2.2⟩
  · have hhigh := hexUpper_facts ⟨b.val/16, by omega⟩
    have hlow := hexUpper_facts ⟨b.val%16, by omega⟩
    simp only [List.mem_cons, List.not_mem_nil, or_false] at hc
    rcases hc with rfl | rfl | rfl
    · exact ⟨by decide, by decide, by decide⟩
    · exact ⟨hhigh.1, hhigh.2.1, hhigh.2.2.1⟩
    · exact ⟨hlow.1, hlow.2.1, hlow.2.2.1⟩

/-- A quoted byte reads back as the byte. -/
theorem unquoteBytes_quoteByte (hsafe : SafeBytes safe) (b : Byte) (rest : List Byte) :
    unquoteBytes (((quoteByte safe b).map fun c => Fin.ofNat 256 c.val) ++ rest) =
      b :: unquoteBytes rest := by
  have hself : Fin.ofNat 256 b.val = b := Fin.ofNat_val_eq_self b
  unfold quoteByte
  split
  · next hb =>
    have hne : b.val ≠ 37 := by
      rcases Bool.or_eq_true _ _ ▸ hb with h | h
      · exact (isUnreserved_facts b h).2.1
      · exact (hsafe b (of_decide_eq_true h)).2.1
    change unquoteBytes (Fin.ofNat 256 b.val :: rest) = _
    rw [hself, unquoteBytes_cons hne]
  · have hhigh := (hexUpper_facts ⟨b.val/16, by omega⟩).2.2.2
    have hlow := (hexUpper_facts ⟨b.val%16, by omega⟩).2.2.2
    have hpercent : (Fin.ofNat 256 percent.val : Byte).val = 37 := rfl
    have hsum : 16*(b.val/16)+b.val%16 = b.val := Nat.div_add_mod b.val 16
    simp only [List.map_cons, List.map_nil, List.cons_append, List.nil_append]
    rw [unquoteBytes, if_pos hpercent]
    simp only [hhigh, hlow]
    rw [hsum, hself]

theorem quote_pathChar (hsafe : SafeBytes safe) {s q : Str} (h : quote safe s = some q) :
    ∀ c ∈ q, IsPathChar c := by
  obtain ⟨bytes, -, rfl⟩ := Option.map_eq_some_iff.mp h
  intro c hc
  obtain ⟨b, -, hb⟩ := List.mem_flatMap.mp hc
  exact quoteByte_pathChar safe hsafe b c hb

/-- What is quoted reads back as its UTF-8 bytes. -/
theorem unquoteToBytes_quote (hsafe : SafeBytes safe) {s q : Str} (h : quote safe s = some q) :
    unquoteToBytes q = some (utf8 s) := by
  have hascii : ∀ c ∈ q, c.val < 0x80 := fun c hc => (quote_pathChar safe hsafe h c hc).1
  obtain ⟨bytes, hbytes, rfl⟩ := Option.map_eq_some_iff.mp h
  obtain ⟨-, rfl⟩ := encode_eq_some.mp hbytes
  have hread (bs : List Byte) :
      unquoteBytes ((bs.flatMap (quoteByte safe)).map fun c => Fin.ofNat 256 c.val) = bs := by
    induction bs with
    | nil => rfl
    | cons b bs ih => rw [List.flatMap_cons, List.map_append, unquoteBytes_quoteByte safe hsafe, ih]
  rw [unquoteToBytes, encode_eq_some.mpr ⟨isUtf8_ascii hascii, rfl⟩, Option.map_some,
    utf8_ascii hascii, hread]

theorem quote_append {s t q r : Str} (hs : quote safe s = some q) (ht : quote safe t = some r) :
    quote safe (s ++ t) = some (q ++ r) := by
  obtain ⟨bytes, hbytes, rfl⟩ := Option.map_eq_some_iff.mp hs
  obtain ⟨rest, hrest, rfl⟩ := Option.map_eq_some_iff.mp ht
  obtain ⟨hs8, rfl⟩ := encode_eq_some.mp hbytes
  obtain ⟨ht8, rfl⟩ := encode_eq_some.mp hrest
  have hencode : encode (s ++ t) = some (utf8 s ++ utf8 t) :=
    encode_eq_some.mpr ⟨isUtf8_append.mpr ⟨hs8, ht8⟩, List.flatMap_append⟩
  rw [quote, hencode, Option.map_some, List.flatMap_append]

theorem quote_ascii {s : Str} (h : ∀ c ∈ s, c.val < 0x80) : ∃ q, quote safe s = some q := by
  refine ⟨_, by rw [quote, encode_eq_some.mpr ⟨isUtf8_ascii h, rfl⟩]; rfl⟩

end Quoting

end PythonUrl
