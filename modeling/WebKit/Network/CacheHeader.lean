import WebKit.Network.CacheValidation

/-!
The parser of the headers that control caches. It removes the white space, and then reads a directive
from each position on: up to the next comma, or up to the next equals sign if that comes first, with a
value behind it. A value is a token up to the next comma, or stands in quotes, where commas and equals
signs are characters like others.
-/

namespace WebKit.Network

open List

def isCacheHeaderSeparator (c : UInt16) : Bool := c ∈ ascii "()<>@,;:\\\"/[]?=\x7b\x7d \t"

def isControlCharacterOrSpace (c : UInt16) : Bool := c.toNat ≤ 0x20 || c.toNat = 127

def trimToNextSeparator (text : List UInt16) : List UInt16 :=
  text.takeWhile fun c => !isCacheHeaderSeparator c

def find (text : List UInt16) (c : UInt16) (start : ℕ) : Option ℕ :=
  ((text.drop start).idxOf? c).map (start + ·)

def comma : UInt16 := 0x2C

def equalSign : UInt16 := 0x3D

def doubleQuote : UInt16 := 0x22

abbrev Directive := List UInt16 × List UInt16

abbrev Reading := Directive × Option ℕ

def readName (header : List UInt16) (pos next : ℕ) : List UInt16 :=
  trimToNextSeparator ((header.drop pos).take (next - pos))

def readValue (header directive : List UInt16) (pos : ℕ) : Reading :=
  let value := header.drop pos
  if value.headD 0 = doubleQuote then
    match find value doubleQuote 1 with
    | none => ((directive, trimToNextSeparator (value.drop 1)), none)
    | some nextDoubleQuote =>
      ((directive, (value.drop 1).take (nextDoubleQuote - 1)),
        (find header comma (pos + nextDoubleQuote + 1)).map (· + 1))
  else
    match find value comma 0 with
    | none => ((directive, trimToNextSeparator value), none)
    | some nextComma =>
      ((directive, trimToNextSeparator (value.take nextComma)), (find header comma pos).map (· + 1))

def readDirective (header : List UInt16) (pos : ℕ) : Reading :=
  match find header comma pos, find header equalSign pos with
  | none, none => ((readName header pos header.length, []), none)
  | some nextComma, none => ((readName header pos nextComma, []), some (nextComma + 1))
  | none, some nextEqualSign =>
    readValue header (readName header pos nextEqualSign) (nextEqualSign + 1)
  | some nextComma, some nextEqualSign =>
    if nextComma < nextEqualSign then ((readName header pos nextComma, []), some (nextComma + 1))
    else readValue header (readName header pos nextEqualSign) (nextEqualSign + 1)

def readDirectives (header : List UInt16) : ℕ → ℕ → List Directive → Option (List Directive)
  | 0, pos, result => if pos < header.length then none else some result
  | rounds + 1, pos, result =>
    if pos < header.length then
      match (readDirective header pos).2 with
      | none => some (result ++ [(readDirective header pos).1])
      | some next => readDirectives header rounds next (result ++ [(readDirective header pos).1])
    else some result

def removeCharacters (header : List UInt16) : List UInt16 :=
  header.filter fun c => !isControlCharacterOrSpace c

def parseCacheHeader (header : List UInt16) : Option (List Directive) :=
  readDirectives (removeCharacters header) (removeCharacters header).length 0 []

abbrev Blank := { text : List UInt16 // ∀ c ∈ text, isControlCharacterOrSpace c }

def IsToken (text : List UInt16) : Prop :=
  text ≠ [] ∧ ∀ c ∈ text, ¬ isCacheHeaderSeparator c ∧ ¬ isControlCharacterOrSpace c

inductive DirectiveValue where
  | absent
  | token (text : List UInt16) (h : IsToken text)
  | quoted (text : List UInt16) (h : ∀ c ∈ text, c ≠ doubleQuote ∧ ¬ isControlCharacterOrSpace c)

namespace DirectiveValue

def text : DirectiveValue → List UInt16
  | absent => []
  | token text _ => text
  | quoted text _ => text

def written : DirectiveValue → Option (List UInt16)
  | absent => none
  | token text _ => some text
  | quoted text _ => some (doubleQuote :: (text ++ [doubleQuote]))

def rendered (equals : List UInt16) (value : DirectiveValue) : List UInt16 :=
  value.written.elim [] (equals ++ ·)

end DirectiveValue

structure CacheDirective where
  name : List UInt16
  isToken : IsToken name
  value : DirectiveValue
  before : Blank
  beforeEquals : Blank
  afterEquals : Blank
  after : Blank

namespace CacheDirective

def plain (directive : CacheDirective) : List UInt16 :=
  directive.name ++ directive.value.rendered [equalSign]

def rendered (directive : CacheDirective) : List UInt16 :=
  directive.before.1 ++ (directive.name ++
    directive.value.rendered (directive.beforeEquals.1 ++ equalSign :: directive.afterEquals.1)) ++
    directive.after.1

def result (directive : CacheDirective) : Directive := (directive.name, directive.value.text)

end CacheDirective

def renderDirectives : List CacheDirective → List UInt16
  | [] => []
  | directive :: directives =>
    directive.rendered ++ directives.flatMap fun directive => comma :: directive.rendered

variable {header text name tail : List UInt16} {c : UInt16} {pos next : ℕ}

theorem le_of_find (h : find text c pos = some next) : pos ≤ next := by
  obtain ⟨position, -, rfl⟩ := Option.map_eq_some_iff.mp h
  exact Nat.le_add_right pos position

theorem lt_of_readValue (h : (readValue header name pos).2 = some next) : pos < next := by
  simp only [readValue] at h
  split at h <;> split at h
  · cases h
  · obtain ⟨place, hfind, rfl⟩ := Option.map_eq_some_iff.mp h
    have hle := le_of_find hfind
    omega
  · cases h
  · obtain ⟨place, hfind, rfl⟩ := Option.map_eq_some_iff.mp h
    exact Nat.lt_succ_of_le (le_of_find hfind)

/-- Every round goes on from a later position. -/
theorem lt_of_readDirective (h : (readDirective header pos).2 = some next) : pos < next := by
  unfold readDirective at h
  split at h
  · cases h
  · next hcomma _ =>
    cases h
    exact Nat.lt_succ_of_le (le_of_find hcomma)
  · next hequal =>
    exact (Nat.lt_succ_of_le (le_of_find hequal)).trans (lt_of_readValue h)
  · next hcomma hequal =>
    split at h
    · cases h
      exact Nat.lt_succ_of_le (le_of_find hcomma)
    · exact (Nat.lt_succ_of_le (le_of_find hequal)).trans (lt_of_readValue h)

theorem isSome_readDirectives {rounds : ℕ} (h : header.length ≤ pos + rounds)
    (result : List Directive) : (readDirectives header rounds pos result).isSome := by
  induction rounds generalizing pos result with
  | zero => rw [readDirectives, if_neg (by omega), Option.isSome_some]
  | succ rounds ih =>
    unfold readDirectives
    split
    · split
      · rfl
      · next hread =>
        have hlt := lt_of_readDirective hread
        exact ih (by omega) _
    · rfl

theorem removeCharacters_append (a b : List UInt16) :
    removeCharacters (a ++ b) = removeCharacters a ++ removeCharacters b :=
  filter_append a b

theorem removeCharacters_blank (text : Blank) : removeCharacters text.1 = [] := by
  simpa [removeCharacters] using text.2

theorem removeCharacters_eq_self (h : ∀ c ∈ text, ¬ isControlCharacterOrSpace c) :
    removeCharacters text = text := by
  simpa [removeCharacters] using h

theorem DirectiveValue.not_control {value : DirectiveValue} (h : value.written = some text)
    (hc : c ∈ text) : ¬ isControlCharacterOrSpace c := by
  cases value with
  | absent => cases h
  | token text htoken =>
    cases h
    exact (htoken.2 c hc).2
  | quoted text hquoted =>
    cases h
    obtain rfl | hc | rfl : c = doubleQuote ∨ c ∈ text ∨ c = doubleQuote := by simpa using hc
    · decide
    · exact (hquoted c hc).2
    · decide

theorem removeCharacters_rendered (directive : CacheDirective) :
    removeCharacters directive.rendered = directive.plain := by
  have hequals : removeCharacters (directive.beforeEquals.1 ++ equalSign :: directive.afterEquals.1) =
      [equalSign] := by
    rw [append_cons, removeCharacters_append, removeCharacters_append, removeCharacters_blank,
      removeCharacters_blank]
    rfl
  rw [CacheDirective.rendered, CacheDirective.plain, removeCharacters_append,
    removeCharacters_append, removeCharacters_append, removeCharacters_blank, removeCharacters_blank,
    removeCharacters_eq_self fun c hc => (directive.isToken.2 c hc).2, nil_append, append_nil]
  congr 1
  rw [DirectiveValue.rendered, DirectiveValue.rendered]
  cases hwritten : directive.value.written with
  | none => rfl
  | some text =>
    rw [Option.elim_some, removeCharacters_append, hequals,
      removeCharacters_eq_self fun c => directive.value.not_control hwritten, Option.elim_some]

def plainRest (directives : List CacheDirective) : List UInt16 :=
  directives.flatMap fun directive => comma :: directive.plain

theorem removeCharacters_flatMap (directives : List CacheDirective) :
    removeCharacters (directives.flatMap fun directive => comma :: directive.rendered) =
      plainRest directives := by
  induction directives with
  | nil => rfl
  | cons directive directives ih =>
    rw [flatMap_cons, plainRest, flatMap_cons, removeCharacters_append, ih, ← singleton_append,
      removeCharacters_append, removeCharacters_rendered]
    rfl

/-- A character that does not occur in a part of the text is found behind it. -/
theorem find_append_append (h : c ∉ text) (front rest : List UInt16) :
    find (front ++ (text ++ rest)) c front.length =
      (rest.idxOf? c).map (front.length + text.length + ·) := by
  have htext : text.idxOf? c = none := idxOf?_eq_none_iff.mpr h
  rw [idxOf?] at htext
  rw [find, drop_left, idxOf?, findIdx?_append, htext, Option.none_or, Option.map_map]
  congr 1
  funext position
  exact (congrArg _ (Nat.add_comm ..)).trans (Nat.add_assoc ..).symm

theorem IsToken.not_mem (h : IsToken text) (hc : isCacheHeaderSeparator c) : c ∉ text :=
  fun hmem => (h.2 c hmem).1 hc

theorem IsToken.trim (h : IsToken text) : trimToNextSeparator text = text :=
  takeWhile_eq_self_iff.mpr fun c hc => by simpa using (h.2 c hc).1

theorem IsToken.readName (h : IsToken name) (front tail : List UInt16) :
    readName (front ++ (name ++ tail)) front.length (front.length + name.length) = name := by
  rw [Network.readName, drop_left, Nat.add_sub_cancel_left, take_left, h.trim]

theorem readDirective_equals (h : IsToken name) (front body : List UInt16) :
    readDirective (front ++ (name ++ equalSign :: body)) front.length =
      readValue (front ++ (name ++ equalSign :: body)) name (front.length + name.length + 1) := by
  rw [readDirective, find_append_append (h.not_mem (by decide)),
    find_append_append (h.not_mem (by decide)), idxOf?_cons, idxOf?_cons, if_neg (by decide),
    if_pos (by decide), Option.map_some, Nat.add_zero]
  cases body.idxOf? comma with
  | none => simp [h.readName]
  | some position =>
    have hlt : ¬ front.length + name.length + (position + 1) < front.length + name.length := by omega
    simp [h.readName, hlt]

/-- A value is read back, and the next directive is behind the comma. -/
theorem readValue_written {value : DirectiveValue} (h : value.written = some text)
    (front name : List UInt16) (htail : tail = [] ∨ ∃ rest, tail = comma :: rest) :
    readValue (front ++ (text ++ tail)) name front.length =
      ((name, value.text), (tail.idxOf? comma).map (front.length + text.length + · + 1)) := by
  cases value with
  | absent => cases h
  | token text htoken =>
    cases h
    have hhead : (text ++ tail).headD 0 ≠ doubleQuote := by
      obtain ⟨c, text, rfl⟩ := exists_cons_of_ne_nil htoken.1
      exact fun hc => htoken.not_mem (c := doubleQuote) (by decide) (hc ▸ mem_cons_self)
    have hcomma := find_append_append (htoken.not_mem (c := comma) (by decide))
    have hfind := hcomma [] tail
    simp only [nil_append, length_nil, Nat.zero_add] at hfind
    simp only [readValue, drop_left, if_neg hhead, hfind, hcomma]
    obtain rfl | ⟨rest, rfl⟩ := htail
    · simp [htoken.trim, DirectiveValue.text]
    · simp [htoken.trim, idxOf?_cons, DirectiveValue.text]
  | quoted text hquoted =>
    cases h
    have hquote := find_append_append (fun hc => (hquoted _ hc).1 rfl) [doubleQuote]
      (doubleQuote :: tail)
    have hcomma := @find_append_append [] comma nofun
      (front ++ doubleQuote :: (text ++ [doubleQuote])) tail
    have hpos : front.length + (1 + text.length) + 1 = front.length + (text.length + 1 + 1) := by omega
    rw [idxOf?_cons, if_pos (by simp), Option.map_some] at hquote
    simp only [length_cons, length_nil, length_append, Nat.zero_add, Nat.add_zero, nil_append,
      append_assoc, cons_append] at hquote hcomma
    simp [readValue, hquote, hpos, hcomma, DirectiveValue.text]
    rfl

theorem readDirective_plain (directive : CacheDirective) (front : List UInt16)
    (htail : tail = [] ∨ ∃ rest, tail = comma :: rest) :
    readDirective (front ++ (directive.plain ++ tail)) front.length = (directive.result,
      (tail.idxOf? comma).map (front.length + directive.plain.length + · + 1)) := by
  obtain ⟨name, hname, value, _, _, _, _⟩ := directive
  simp only [CacheDirective.plain, CacheDirective.result, DirectiveValue.rendered]
  cases hwritten : value.written with
  | none =>
    have htext : value.text = [] := by cases value <;> first | rfl | cases hwritten
    rw [Option.elim_none, append_nil, htext, readDirective,
      find_append_append (hname.not_mem (by decide)), find_append_append (hname.not_mem (by decide))]
    obtain rfl | ⟨rest, rfl⟩ := htail
    · simpa using hname.readName front []
    · have hread := hname.readName front (comma :: rest)
      have hne : (comma == equalSign) = false := by decide
      cases hequal : rest.idxOf? equalSign with
      | none => simp [idxOf?_cons, hequal, hread, hne]
      | some place => simp [idxOf?_cons, hequal, hread, hne]
  | some text =>
    have hread := readValue_written hwritten (front ++ (name ++ [equalSign])) name htail
    have hlen : (front ++ (name ++ [equalSign])).length + text.length =
        front.length + (name ++ (equalSign :: text)).length := by simp; omega
    rw [hlen] at hread
    simpa [readDirective_equals hname, Nat.add_assoc] using hread

theorem length_lt_of_plain (directive : CacheDirective) (front tail : List UInt16) :
    front.length < (front ++ (directive.plain ++ tail)).length := by
  have hname := length_pos_iff.mpr directive.isToken.1
  simp only [CacheDirective.plain, length_append]
  omega

theorem readDirectives_plain (directive : CacheDirective) (directives : List CacheDirective)
    (front : List UInt16) (result : List Directive) {rounds : ℕ}
    (h : (directive.plain ++ plainRest directives).length ≤ rounds) :
    readDirectives (front ++ (directive.plain ++ plainRest directives)) rounds front.length result =
      some (result ++ (directive :: directives).map CacheDirective.result) := by
  induction directives generalizing directive front rounds result with
  | nil =>
    have hlt := length_lt_of_plain directive [] []
    obtain ⟨rounds, rfl⟩ := Nat.exists_eq_succ_of_ne_zero (hlt.trans_le h).ne'
    rw [readDirectives, if_pos (length_lt_of_plain ..), plainRest, flatMap_nil,
      readDirective_plain directive front (.inl rfl)]
    rfl
  | cons next directives ih =>
    simp only [plainRest, flatMap_cons, length_append, length_cons] at h ih ⊢
    obtain ⟨rounds, rfl⟩ := Nat.exists_eq_succ_of_ne_zero (show rounds ≠ 0 by omega)
    have hrest := @ih next (front ++ (directive.plain ++ [comma])) (result ++ [directive.result])
      rounds (by omega)
    rw [readDirectives, if_pos (length_lt_of_plain ..), cons_append,
      readDirective_plain directive front (.inr ⟨_, rfl⟩), idxOf?_cons, if_pos (by decide)]
    simpa [Nat.add_assoc] using hrest

/-- A header of directives with white space around the separators is read back as their names and
values, and every header is read to its end. -/
theorem parseCacheHeader_renderDirectives (directives : List CacheDirective) (header : List UInt16) :
    parseCacheHeader (renderDirectives directives) = some (directives.map CacheDirective.result) ∧
      (parseCacheHeader header).isSome := by
  refine ⟨?_, isSome_readDirectives (Nat.le_add_left ..) _⟩
  cases directives with
  | nil => rfl
  | cons directive directives =>
    have hplain : removeCharacters (renderDirectives (directive :: directives)) =
        directive.plain ++ plainRest directives := by
      rw [renderDirectives, removeCharacters_append, removeCharacters_rendered,
        removeCharacters_flatMap]
    rw [parseCacheHeader, hplain]
    exact readDirectives_plain directive directives [] [] le_rfl

end WebKit.Network
