import WebKit.Foundation.HashMaps
import WebKit.Network.RangeHeader

/-!
How a stored response takes over the headers of the response that validates it. Two names of the
table of the headers to ignore have no comma between them, and make up one entry. Names are compared
without regard to the case of their letters; a map keeps the spelling that it lists a name with.
-/

namespace WebKit.Network

open List HashMaps

def lower (name : List UInt16) : List UInt16 := name.map toASCIILower

structure HTTPHeader where
  key : List UInt16
  value : List UInt16
  deriving DecidableEq

/-- The headers, by their names in lower case. -/
structure HTTPHeaderMap where
  headers : HashMap (List UInt16) HTTPHeader
  lower_key : ∀ {name header}, headers.lookup name = some header → lower header.key = name

/-- How the names of the common headers are spelled; another name stands for itself. -/
structure HeaderNames where
  httpHeaderNameString : List UInt16 → List UInt16
  lower_httpHeaderNameString : ∀ name, lower (httpHeaderNameString name) = lower name

namespace HTTPHeaderMap

def empty : HTTPHeaderMap := ⟨∅, fun h => absurd h (by rw [AList.lookup_empty]; exact nofun)⟩

def get (map : HTTPHeaderMap) (name : List UInt16) : Option (List UInt16) :=
  (map.headers.lookup (lower name)).map HTTPHeader.value

/-- A name that the map has keeps its spelling. -/
def set (names : HeaderNames) (map : HTTPHeaderMap) (name value : List UInt16) : HTTPHeaderMap where
  headers := map.headers.insert (lower name)
    ⟨((map.headers.lookup (lower name)).map HTTPHeader.key).getD (names.httpHeaderNameString name), value⟩
  lower_key {name' header} h := by
    rw [lookup_insert_eq] at h
    split_ifs at h with hname
    · obtain rfl := Option.some.inj h
      cases hget : map.headers.lookup (lower name) with
      | none => exact (names.lower_httpHeaderNameString name).trans hname.symm
      | some stored => exact (map.lower_key hget).trans hname.symm
    · exact map.lower_key h

theorem get_set (names : HeaderNames) (map : HTTPHeaderMap) (name value name' : List UInt16) :
    (map.set names name value).get name' =
      if lower name' = lower name then some value else map.get name' := by
  rw [get, set, lookup_insert_eq]
  split_ifs <;> rfl

end HTTPHeaderMap

variable (tables : CharacterTables)

def equalIgnoringASCIICase (a b : List UInt16) : Bool := lower a = lower b

def startsWith (text start : List UInt16) : Bool :=
  (text.take start.length).map tables.foldCase = start.map tables.foldCase

def headersToIgnoreAfterRevalidation : List String :=
  ["allow", "connection", "etag", "keep-alive", "last-modifiedproxy-authenticate", "proxy-connection",
    "trailer", "transfer-encoding", "upgrade", "www-authenticate", "x-frame-options", "x-xss-protection"]

def headerPrefixesToIgnoreAfterRevalidation : List String := ["content-", "x-content-", "x-webkit-"]

def shouldUpdateHeaderAfterRevalidation (header : List UInt16) : Bool :=
  headersToIgnoreAfterRevalidation.all (fun name => !equalIgnoringASCIICase header (ascii name)) &&
    headerPrefixesToIgnoreAfterRevalidation.all fun start => !startsWith tables header (ascii start)

def updateResponseHeadersAfterRevalidation (names : HeaderNames)
    (order : IterationOrder (List UInt16 × HTTPHeader)) (response validatingResponse : HTTPHeaderMap) :
    HTTPHeaderMap :=
  (order.order (pairs validatingResponse.headers)).foldl (fun response header =>
    if shouldUpdateHeaderAfterRevalidation tables header.2.key then
      response.set names header.2.key header.2.value
    else response) response

/-- The names of the headers that a stored response should keep. -/
def keptNames : List String :=
  ["allow", "connection", "etag", "keep-alive", "last-modified", "proxy-authenticate",
    "proxy-connection", "trailer", "transfer-encoding", "upgrade", "www-authenticate",
    "x-frame-options", "x-xss-protection"]

def keptStarts : List String := ["content-", "x-content-", "x-webkit-"]

/-- A name of one of these headers, or with one of these starts, whatever the case of its letters. -/
def Kept (name : List UInt16) : Prop :=
  (∃ kept ∈ keptNames, lower name = ascii kept) ∨
    ∃ start ∈ keptStarts, ∃ head rest, name = head ++ rest ∧ head.map tables.foldCase = ascii start

structure Freshens (response validatingResponse result : HTTPHeaderMap) : Prop where
  kept : ∀ {name value}, Kept tables name → response.get name = some value →
    result.get name = some value
  taken : ∀ {name value}, ¬Kept tables name → validatingResponse.get name = some value →
    result.get name = some value
  others : ∀ {name value}, validatingResponse.get name = none → response.get name = some value →
    result.get name = some value

def lastModified : List UInt16 := ascii "last-modified"

def proxyAuthenticate : List UInt16 := ascii "proxy-authenticate"

def joinedNames : List UInt16 := ascii "last-modifiedproxy-authenticate"

def tableErrors : List (List UInt16) := [lastModified, proxyAuthenticate, joinedNames]

/-- The headers whose names are joined in the table have the values that are stored. -/
structure NotJoined (response validatingResponse : HTTPHeaderMap) : Prop where
  kept : ∀ {name value stored}, lower name = lastModified ∨ lower name = proxyAuthenticate →
    validatingResponse.get name = some value → response.get name = some stored → value = stored
  taken : ∀ {name value}, lower name = joinedNames → validatingResponse.get name = some value →
    response.get name = some value

variable {tables} {name : List UInt16}

section Folding

variable (tables)

theorem toASCIILower_lt {c : UInt16} (h : c.toNat < 0x80) : (toASCIILower c).toNat < 0x80 := by
  rw [toASCIILower]
  split_ifs
  · rw [UInt16.toNat_add]
    simp only [UInt16.reduceToNat]
    omega
  · exact h

theorem toASCIILower_idem (c : UInt16) : toASCIILower (toASCIILower c) = toASCIILower c := by
  by_cases hc : 0x41 ≤ c.toNat ∧ c.toNat ≤ 0x5A
  · have hlow : (c + 0x20).toNat = c.toNat + 0x20 := by
      rw [UInt16.toNat_add]
      simp only [UInt16.reduceToNat]
      omega
    rw [toASCIILower, toASCIILower, if_pos hc, if_neg (by omega)]
  · have hself : toASCIILower c = c := if_neg hc
    rw [hself, hself]

theorem lower_lower (name : List UInt16) : lower (lower name) = lower name := by
  rw [lower, lower, map_map]
  exact map_congr_left fun c _ => toASCIILower_idem c

theorem foldCase_toASCIILower (c : UInt16) : tables.foldCase (toASCIILower c) = tables.foldCase c := by
  by_cases hc : c.toNat < 0x80
  · rw [tables.foldCase_ascii hc, tables.foldCase_ascii (toASCIILower_lt hc), toASCIILower_idem]
  · rw [toASCIILower, if_neg (by omega)]

theorem map_foldCase_eq {text : List UInt16} (h : text.all fun c => c.toNat < 0x80) :
    text.map tables.foldCase = lower text :=
  map_congr_left fun c hc => tables.foldCase_ascii (of_decide_eq_true (all_eq_true.mp h c hc))

theorem startsWith_lower (text start : List UInt16) :
    startsWith tables (lower text) start = startsWith tables text start := by
  have hfold : tables.foldCase ∘ toASCIILower = tables.foldCase := funext (foldCase_toASCIILower tables)
  rw [startsWith, lower, ← map_take, map_map, hfold, startsWith]

theorem shouldUpdateHeaderAfterRevalidation_lower (name : List UInt16) :
    shouldUpdateHeaderAfterRevalidation tables (lower name) =
      shouldUpdateHeaderAfterRevalidation tables name := by
  simp only [shouldUpdateHeaderAfterRevalidation, equalIgnoringASCIICase, lower_lower, startsWith_lower]

end Folding

/-- A text of ASCII does not start with another one that begins with another letter. -/
theorem not_startsWith {c d : UInt16} (text start : List UInt16) (hc : c.toNat < 0x80)
    (hd : d.toNat < 0x80) (hne : toASCIILower c ≠ toASCIILower d) :
    ¬startsWith tables (c :: text) (d :: start) := by
  intro h
  have hfold : tables.foldCase c = tables.foldCase d := (List.cons.inj (of_decide_eq_true h)).1
  rw [tables.foldCase_ascii hc, tables.foldCase_ascii hd] at hfold
  exact hne hfold

theorem startsWith_iff {start : String} (hstart : start ∈ keptStarts) :
    startsWith tables name (ascii start) ↔
      ∃ head rest, name = head ++ rest ∧ head.map tables.foldCase = ascii start := by
  have hascii : ∀ start ∈ keptStarts, (ascii start).all fun c => c.toNat < 0x80 := by decide
  have hlow : ∀ start ∈ keptStarts, lower (ascii start) = ascii start := by decide
  rw [startsWith, decide_eq_true_iff, map_foldCase_eq tables (hascii start hstart), hlow start hstart]
  constructor
  · intro h
    exact ⟨_, _, (take_append_drop _ _).symm, h⟩
  · rintro ⟨head, rest, rfl, h⟩
    have hlen : head.length = (ascii start).length := by rw [← h, length_map]
    rw [take_left' hlen, h]

theorem mem_tableErrors :
    name ∈ tableErrors ↔ name = lastModified ∨ name = proxyAuthenticate ∨ name = joinedNames := by
  simp [tableErrors]

theorem not_startsWith_of_joined (hname : lower name ∈ tableErrors) :
    ¬∃ start ∈ keptStarts, startsWith tables name (ascii start) := by
  rintro ⟨start, hmem, hstart⟩
  rw [← startsWith_lower] at hstart
  generalize lower name = joined at hname hstart
  simp only [keptStarts, mem_cons, not_mem_nil, or_false] at hmem
  rcases mem_tableErrors.mp hname with rfl | rfl | rfl <;> rcases hmem with rfl | rfl | rfl <;>
    exact not_startsWith _ _ (by decide) (by decide) (by decide) hstart

theorem kept_iff : Kept tables name ↔ (∃ kept ∈ keptNames, lower name = ascii kept) ∨
    ∃ start ∈ keptStarts, startsWith tables name (ascii start) := by
  refine or_congr_right (exists_congr fun start => and_congr_right fun hstart => ?_)
  exact (startsWith_iff hstart).symm

theorem kept_of_joined (hname : lower name = lastModified ∨ lower name = proxyAuthenticate) :
    Kept tables name := by
  refine .inl ?_
  rcases hname with hname | hname
  · exact ⟨"last-modified", by decide, hname⟩
  · exact ⟨"proxy-authenticate", by decide, hname⟩

theorem not_kept_joinedNames (hname : lower name = joinedNames) : ¬Kept tables name := by
  rw [kept_iff, not_or]
  refine ⟨?_, not_startsWith_of_joined (by rw [hname]; decide)⟩
  rw [hname]
  decide

/-- The joined names are taken for what they are not. -/
theorem shouldUpdateHeaderAfterRevalidation_iff (name : List UInt16) :
    shouldUpdateHeaderAfterRevalidation tables name ↔
      (Kept tables name ↔ lower name ∈ tableErrors) := by
  have hnames : ∀ kept ∈ headersToIgnoreAfterRevalidation, lower (ascii kept) = ascii kept := by decide
  have hupdate : shouldUpdateHeaderAfterRevalidation tables name ↔
      ¬((∃ kept ∈ headersToIgnoreAfterRevalidation, lower name = ascii kept) ∨
        ∃ start ∈ keptStarts, startsWith tables name (ascii start)) := by
    rw [shouldUpdateHeaderAfterRevalidation, Bool.and_eq_true, all_eq_true, all_eq_true, not_or]
    refine and_congr ?_ (by simp [headerPrefixesToIgnoreAfterRevalidation, keptStarts])
    simp only [not_exists, not_and]
    refine forall₂_congr fun kept hmem => ?_
    rw [equalIgnoringASCIICase, hnames kept hmem, Bool.not_eq_true', decide_eq_false_iff_not]
  rw [hupdate, kept_iff]
  by_cases hjoined : lower name ∈ tableErrors
  · simp only [not_startsWith_of_joined hjoined, or_false]
    generalize lower name = joined at hjoined
    rcases mem_tableErrors.mp hjoined with rfl | rfl | rfl <;> decide
  · rw [iff_false_right hjoined]
    simp only [mem_tableErrors, lastModified, proxyAuthenticate, joinedNames, not_or] at hjoined
    simp [headersToIgnoreAfterRevalidation, keptNames, hjoined]

variable (names : HeaderNames) (order : IterationOrder (List UInt16 × HTTPHeader))
  (response validating : HTTPHeaderMap)

theorem get_updateResponseHeadersAfterRevalidation (name : List UInt16) :
    (updateResponseHeadersAfterRevalidation tables names order response validating).get name =
      if shouldUpdateHeaderAfterRevalidation tables name then
        (validating.get name).or (response.get name) else response.get name := by
  have hspelled : ∀ {header}, validating.headers.lookup (lower name) = some header →
      shouldUpdateHeaderAfterRevalidation tables header.key =
        shouldUpdateHeaderAfterRevalidation tables name := by
    intro header hget
    rw [← shouldUpdateHeaderAfterRevalidation_lower, validating.lower_key hget,
      shouldUpdateHeaderAfterRevalidation_lower]
  have hfold := @foldl_pairs_eq _ _ _ (lower name) HTTPHeaderMap (List UInt16) order validating.headers
    (·.get name) (fun response header =>
      if shouldUpdateHeaderAfterRevalidation tables header.2.key then
        response.set names header.2.key header.2.value else response)
    (fun header => if shouldUpdateHeaderAfterRevalidation tables name then some header.value else none)
    (fun state header hget => ?_) (fun state other header hother hget => ?_) response
  · have hget : validating.get name =
        (validating.headers.lookup (lower name)).map HTTPHeader.value := rfl
    rw [updateResponseHeadersAfterRevalidation, hfold, hget]
    cases validating.headers.lookup (lower name) <;> split_ifs <;> rfl
  · rw [hspelled hget]
    split_ifs
    · rw [HTTPHeaderMap.get_set, if_pos (validating.lower_key hget).symm, Option.some_or]
    · rw [Option.none_or]
  · have hkey := validating.lower_key hget
    split_ifs
    · rw [HTTPHeaderMap.get_set, if_neg (hkey ▸ hother.symm)]
    · rfl

/-- The headers are taken over as they should be unless the joined names matter. -/
theorem updateResponseHeadersAfterRevalidation_freshens_iff : Freshens tables response validating
        (updateResponseHeadersAfterRevalidation tables names order response validating) ↔
      NotJoined response validating := by
  have hres := @get_updateResponseHeadersAfterRevalidation tables names order response validating
  constructor
  · intro h
    refine ⟨fun {name value stored} hname hval hstore => ?_, fun {name value} hname hval => ?_⟩
    · have hkept : Kept tables name := kept_of_joined hname
      have hstays := h.kept hkept hstore
      rw [hres, if_pos ((shouldUpdateHeaderAfterRevalidation_iff name).mpr (iff_of_true hkept
        (mem_tableErrors.mpr (or_assoc.mp (.inl hname))))), hval] at hstays
      exact Option.some.inj hstays
    · have hnot : ¬Kept tables name := not_kept_joinedNames hname
      have htaken := h.taken hnot hval
      rw [hres, if_neg] at htaken
      · exact htaken
      · rw [shouldUpdateHeaderAfterRevalidation_iff]
        exact fun hiff => hnot (hiff.mpr (mem_tableErrors.mpr (.inr (.inr hname))))
  · intro h
    refine ⟨fun {name value} hkept hval => ?_, fun {name value} hkept hval => ?_,
      fun {name value} hnone hval => ?_⟩
    · rw [hres, hval]
      split_ifs with hupdate
      · cases hnew : validating.get name with
        | none => rfl
        | some new =>
          have hjoined := ((shouldUpdateHeaderAfterRevalidation_iff name).mp hupdate).mp hkept
          rcases mem_tableErrors.mp hjoined with hname | hname | hname
          · exact congrArg some (h.kept (.inl hname) hnew hval)
          · exact congrArg some (h.kept (.inr hname) hnew hval)
          · exact absurd hkept (not_kept_joinedNames hname)
      · rfl
    · rw [hres, hval]
      split_ifs with hupdate
      · rfl
      · rw [shouldUpdateHeaderAfterRevalidation_iff, iff_false_left hkept, not_not] at hupdate
        rcases mem_tableErrors.mp hupdate with hname | hname | hname
        · exact absurd (kept_of_joined (.inl hname)) hkept
        · exact absurd (kept_of_joined (.inr hname)) hkept
        · exact h.taken hname hval
    · rw [hres, hnone, hval]
      simp

/-- A validating response replaces the date of the last modification. -/
theorem not_freshens_lastModified :
    let names : HeaderNames := ⟨id, fun _ => rfl⟩
    let response := HTTPHeaderMap.empty.set names (ascii "Last-Modified") (ascii "Mon")
    let validating := HTTPHeaderMap.empty.set names (ascii "LAST-modified") (ascii "Tue")
    ¬Freshens asciiTables response validating
      (updateResponseHeadersAfterRevalidation asciiTables names .insertion response validating) := by
  intro names response validating h
  have hkept := @Freshens.kept _ _ _ _ h (ascii "last-modified") (ascii "Mon")
    (kept_of_joined (.inl (by decide))) (by decide)
  revert hkept
  decide

end WebKit.Network
