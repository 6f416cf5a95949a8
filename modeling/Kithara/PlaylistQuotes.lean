import Kithara.HlsKeys
import Kithara.QuotedItems

/-! The guard in front of the playlist library, which panics on a quote it cannot pair: every
attribute list is scanned once, with three flags, before the playlist is handed over. -/
namespace PlaylistQuotes

open HlsKeys QuotedItems UnicodeText

/-- Text cut at a byte length, never inside a character. -/
def takeBytes (n : ℕ) : Text → Text
  | [] => []
  | c :: cs => if c.utf8Size ≤ n then c :: takeBytes (n - c.utf8Size) cs else []

def byteLength (msg : Text) : ℕ := (msg.map Char.utf8Size).sum

def maxLen : ℕ := 200

def truncateError (msg : Text) : Text :=
  if byteLength msg ≤ maxLen then msg
  else takeBytes maxLen msg ++ s!"… ({byteLength msg} bytes total)".toList

inductive HlsError where
  | playlistParse (message : Text)

def attributeListTags : List Text :=
  ["#EXT-X-KEY:".toList, "#EXT-X-MAP:".toList, "#EXT-X-DATERANGE:".toList,
    "#EXT-X-MEDIA:".toList, "#EXT-X-STREAM-INF:".toList, "#EXT-X-I-FRAME-STREAM-INF:".toList,
    "#EXT-X-SESSION-DATA:".toList, "#EXT-X-SESSION-KEY:".toList, "#EXT-X-START:".toList]

/-- The lines of a text: a line feed ends one, and takes a carriage return before it along. -/
def linesFrom (line : Text) : Text → List Text
  | [] => if line = [] then [] else [line]
  | c :: cs =>
    if c = '\n' then
      (if line.getLast? = some '\r' then line.dropLast else line) :: linesFrom [] cs
    else linesFrom (line ++ [c]) cs

def lines (input : Text) : List Text := linesFrom [] input

def stripPrefix (tag line : Text) : Option Text :=
  if tag.isPrefixOf line then some (line.drop tag.length) else none

structure Flags where
  valueStarts : Bool
  quoted : Bool
  closed : Bool
  deriving DecidableEq

/-- The loop over the characters; a quote or a character out of place ends it at once. -/
def scan (f : Flags) : Text → Bool
  | [] => !f.quoted
  | c :: cs =>
    if f.quoted then
      if c = '"' then scan { f with quoted := false, closed := true } cs else scan f cs
    else if c = ',' then scan { f with valueStarts := false, closed := false } cs
    else if isWhitespace c then scan f cs
    else if f.closed then false
    else if c = '=' then scan { f with valueStarts := true } cs
    else if c = '"' then
      if f.valueStarts then scan { f with quoted := true } cs else false
    else scan { f with valueStarts := false } cs

def quotedStringsAreWellFormed (attributes : Text) : Bool :=
  scan { valueStarts := false, quoted := false, closed := false } attributes

def checkLine (line : Text) : Except HlsError Unit :=
  match attributeListTags.findSome? fun tag => stripPrefix tag line with
  | none => .ok ()
  | some attributes =>
    if quotedStringsAreWellFormed attributes then .ok ()
    else .error (.playlistParse
      (truncateError ("malformed quoted string in `".toList ++ line ++ "`".toList)))

def checkQuotedStrings (input : Text) : Except HlsError Unit :=
  forM ((lines input).map trim) checkLine

inductive Reads : Flags → Text → Prop where
  | plain {valueStarts : Bool} {item : Text} (hquote : '"' ∉ item)
      (hvalue : valueStarts = true ↔ StartsValue isWhitespace item) :
      Reads { valueStarts, quoted := false, closed := false } item
  | opened {valueStarts : Bool} {pre span : Text} (hvalue : StartsValue isWhitespace pre)
      (hspan : '"' ∉ span) :
      Reads { valueStarts, quoted := true, closed := false } (pre ++ '"' :: span)
  | shut {valueStarts : Bool} {item : Text} (hitem : QuotedItem isWhitespace item) :
      Reads { valueStarts, quoted := false, closed := true } item

theorem reads_start :
    Reads { valueStarts := false, quoted := false, closed := false } [] :=
  .plain List.not_mem_nil (iff_of_false Bool.false_ne_true not_startsValue_nil)

theorem refused_of_extension (quoted : Bool) {item : Text} (cs : Text)
    (h : ∀ rest, ¬ WellFormed isWhitespace (item ++ rest)) :
    ¬ ∀ x ∈ itemsFrom quoted item cs, WellFormed isWhitespace x := by
  intro hall
  obtain ⟨rest, hmem⟩ := exists_extension quoted item cs
  exact h rest (hall _ hmem)

/-- The scan from a point inside the text accepts exactly when every item, the one begun included,
is well formed. The induction is on the text ahead. -/
theorem scan_iff {f : Flags} {item : Text} (h : Reads f item) (cs : Text) :
    scan f cs = true ↔ ∀ x ∈ itemsFrom f.quoted item cs, WellFormed isWhitespace x := by
  induction cs generalizing f item with
  | nil =>
    cases h with
    | plain hquote hvalue => simp [scan, itemsFrom, WellFormed, hquote]
    | opened hvalue hspan =>
      simp only [scan, itemsFrom, List.mem_singleton, forall_eq]
      exact iff_of_false (by decide) (not_wellFormed_of_open hvalue.1 hspan)
    | shut hitem => simp [scan, itemsFrom, WellFormed, hitem]
  | cons c cs ih =>
    cases h with
    | opened hvalue hspan =>
      rename_i valueStarts pre span
      rw [scan, itemsFrom]
      by_cases hc : c = '"'
      · subst hc
        have hshut : QuotedItem isWhitespace (pre ++ '"' :: span ++ ['"']) :=
          ⟨pre, span, [], by simp, hvalue, hspan, fun x hx => absurd hx List.not_mem_nil⟩
        simpa using ih (.shut hshut)
      · have hspan' : '"' ∉ span ++ [c] := by simp [hspan, Ne.symm hc]
        have hnext : Reads { valueStarts, quoted := true, closed := false }
            (pre ++ '"' :: (span ++ [c])) := .opened hvalue hspan'
        simpa [hc] using ih hnext
    | shut hitem =>
      rename_i valueStarts
      rw [scan, itemsFrom]
      by_cases hcomma : c = ','
      · subst hcomma
        simpa [WellFormed, hitem] using ih reads_start
      · cases hspace : isWhitespace c with
        | true =>
          have hq : c ≠ '"' := by
            rintro rfl
            exact absurd hspace (by decide)
          have hnext : Reads { valueStarts, quoted := false, closed := true } (item ++ [c]) :=
            .shut (quotedItem_space hitem hspace)
          simpa [hcomma, hspace, hq] using ih hnext
        | false =>
          have href := refused_of_extension (decide (c = '"')) cs fun rest =>
            show ¬ WellFormed isWhitespace ((item ++ [c]) ++ rest) by
              rw [List.append_assoc]
              exact not_wellFormed_of_trailing hitem hspace
          simpa [hcomma, hspace] using href
    | plain hquote hvalue =>
      rename_i valueStarts
      rw [scan, itemsFrom]
      by_cases hcomma : c = ','
      · subst hcomma
        simpa [WellFormed, hquote] using ih reads_start
      · cases hspace : isWhitespace c with
        | true =>
          have hq : c ≠ '"' := by
            rintro rfl
            exact absurd hspace (by decide)
          have hnext : Reads { valueStarts, quoted := false, closed := false } (item ++ [c]) :=
            .plain (by simp [hquote, Ne.symm hq])
              (hvalue.trans (startsValue_space (by decide) (by decide) hspace).symm)
          simpa [hcomma, hspace, hq] using ih hnext
        | false =>
          by_cases heq : c = '='
          · subst heq
            have hnext : Reads { valueStarts := true, quoted := false, closed := false }
                (item ++ ['=']) :=
              .plain (by simp [hquote]) (iff_of_true rfl (startsValue_equals hquote))
            simpa [hspace] using ih hnext
          · by_cases hq : c = '"'
            · subst hq
              cases valueStarts with
              | true =>
                have hnext : Reads { valueStarts := true, quoted := true, closed := false }
                    (item ++ '"' :: []) := .opened (hvalue.mp rfl) List.not_mem_nil
                simpa [hspace] using ih hnext
              | false =>
                have hstart : ¬ StartsValue isWhitespace item := fun h =>
                  Bool.false_ne_true (hvalue.mpr h)
                have href := refused_of_extension true cs fun rest =>
                  show ¬ WellFormed isWhitespace ((item ++ ['"']) ++ rest) by
                    rw [List.append_assoc]
                    exact not_wellFormed_of_early hquote hstart
                simpa [hspace] using href
            · have hnext : Reads { valueStarts := false, quoted := false, closed := false }
                  (item ++ [c]) :=
                .plain (by simp [hquote, Ne.symm hq])
                  (iff_of_false Bool.false_ne_true (not_startsValue_other heq hspace))
              simpa [hcomma, hspace, heq, hq] using ih hnext

theorem quotedStringsAreWellFormed_iff (attributes : Text) :
    quotedStringsAreWellFormed attributes = true ↔
      ∀ item ∈ items attributes, WellFormed isWhitespace item :=
  scan_iff reads_start attributes

theorem stripPrefix_eq_some {tag line attributes : Text} :
    stripPrefix tag line = some attributes ↔ line = tag ++ attributes := by
  rw [stripPrefix]
  constructor
  · intro h
    split at h
    · rename_i hpre
      obtain ⟨rest, rfl⟩ := List.isPrefixOf_iff_prefix.mp hpre
      rw [List.drop_left] at h
      rw [Option.some.inj h]
    · exact absurd h (by simp)
  · rintro rfl
    rw [if_pos (List.isPrefixOf_iff_prefix.mpr (List.prefix_append tag attributes)),
      List.drop_left]

theorem tag_unique {tag other line : Text} (ht : tag ∈ attributeListTags)
    (ho : other ∈ attributeListTags) (h : tag <+: line) (h' : other <+: line) : tag = other := by
  have hfree : ∀ a ∈ attributeListTags, ∀ b ∈ attributeListTags, a <+: b → a = b := by decide
  rcases List.prefix_or_prefix_of_prefix h h' with hp | hp
  · exact hfree tag ht other ho hp
  · exact (hfree other ho tag ht hp).symm

theorem findSome_stripPrefix {line attributes : Text} :
    (attributeListTags.findSome? fun tag => stripPrefix tag line) = some attributes ↔
      ∃ tag ∈ attributeListTags, line = tag ++ attributes := by
  constructor
  · intro h
    obtain ⟨tag, hmem, hstrip⟩ := List.exists_of_findSome?_eq_some h
    exact ⟨tag, hmem, stripPrefix_eq_some.mp hstrip⟩
  · rintro ⟨tag, hmem, hline⟩
    cases hfound : attributeListTags.findSome? fun tag => stripPrefix tag line with
    | none =>
      have hstrip := List.findSome?_eq_none_iff.mp hfound tag hmem
      rw [stripPrefix_eq_some.mpr hline] at hstrip
      exact absurd hstrip (by simp)
    | some found =>
      obtain ⟨other, hother, hstrip⟩ := List.exists_of_findSome?_eq_some hfound
      have hline' := stripPrefix_eq_some.mp hstrip
      have htag := tag_unique hmem hother ⟨attributes, hline.symm⟩ ⟨found, hline'.symm⟩
      rw [hline, htag] at hline'
      rw [List.append_cancel_left hline']

theorem checkLine_iff (line : Text) :
    checkLine line = .ok () ↔ ∀ tag ∈ attributeListTags, ∀ attributes, line = tag ++ attributes →
      ∀ item ∈ items attributes, WellFormed isWhitespace item := by
  rw [checkLine]
  split
  · rename_i hnone
    refine iff_of_true rfl ?_
    intro tag htag attributes hline
    rw [findSome_stripPrefix.mpr ⟨tag, htag, hline⟩] at hnone
    exact absurd hnone (by simp)
  · rename_i attributes hsome
    have hiff := quotedStringsAreWellFormed_iff attributes
    obtain ⟨tag, htag, hline⟩ := findSome_stripPrefix.mp hsome
    constructor
    · intro h other hother attributes' hline'
      rw [findSome_stripPrefix.mpr ⟨other, hother, hline'⟩] at hsome
      obtain rfl := Option.some.inj hsome
      split at h
      · rename_i hwell
        exact hiff.mp hwell
      · exact absurd h (by simp)
    · intro h
      rw [if_pos (hiff.mpr (h tag htag attributes hline))]

theorem forM_checkLine_iff (ls : List Text) :
    forM ls checkLine = .ok () ↔ ∀ line ∈ ls, checkLine line = .ok () := by
  induction ls with
  | nil => exact iff_of_true rfl (by simp)
  | cons line ls ih =>
    rw [List.forM_cons, List.forall_mem_cons, ← ih]
    cases hline : checkLine line with
    | ok u => exact ⟨fun h => ⟨rfl, h⟩, fun h => h.2⟩
    | error e => exact iff_of_false (by simp [bind, Except.bind]) (by simp)

/-- The guard accepts exactly its grammar, on one attribute list and on a playlist. -/
theorem guard_accepts_grammar :
    (∀ attributes, OutsideSplit attributes (items attributes) ∧
      (quotedStringsAreWellFormed attributes = true ↔
        ∀ item ∈ items attributes, WellFormed isWhitespace item)) ∧
      ∀ input, checkQuotedStrings input = .ok () ↔
        ∀ line ∈ lines input, ∀ tag ∈ attributeListTags, ∀ attributes,
          trim line = tag ++ attributes →
            ∀ item ∈ items attributes, WellFormed isWhitespace item := by
  constructor
  · intro attributes
    exact ⟨items_outsideSplit attributes, quotedStringsAreWellFormed_iff attributes⟩
  · intro input
    rw [checkQuotedStrings, forM_checkLine_iff, List.forall_mem_map]
    exact forall₂_congr fun line _ => checkLine_iff (trim line)

end PlaylistQuotes
