import LazyQuery.Engine.Config.Reader
import LazyQuery.Log.Record
import LazyQuery.Proofs.Sorting.Stable
import LazyQuery.Proofs.Text.Quoted
import Mathlib.Data.List.Nodup

/-!
# Log lines can be read

A log line is one JSON object whose values are strings.  Such objects are read from left to right (`StringObject.read?`):
blanks may stand around all pieces, strings may hold escapes of any kind, and the members come as they stand, one key more
than once or not.  What is written without blanks and with quoted texts is read back (`StringObject.read?_text`), and this is
how a record is written (`Log.Record.toList_lineWith`), whichever of the escapes its writer takes.

The main statement is `Log.lines_hold_their_records`.
-/

namespace LazyQuery

/-! ### Objects whose values are strings -/

namespace StringObject

open Config.Reader (isJsonBlank)

/-- What follows the given character, if that is the next one but for blanks. -/
def next? (wanted : Char) (text : List Char) : Option (List Char) :=
  match text.dropWhile isJsonBlank with
  | [] => none
  | c :: rest => if c = wanted then some rest else none

/-- The next string, and what follows it. -/
def string? (text : List Char) : Option (String × List Char) := do
  let rest ← next? '"' text
  match Unquote.readRest rest with
  | .ok (cs, after) => some (String.ofList cs, after)
  | .error _ => none

/-- The next member, and what follows it. -/
def member? (text : List Char) : Option ((String × String) × List Char) := do
  let (key, rest) ← string? text
  let rest ← next? ':' rest
  let (value, after) ← string? rest
  return ((key, value), after)

lemma length_lt_of_next? {wanted : Char} {text rest : List Char} (h : next? wanted text = some rest) :
    rest.length < text.length := by
  have hdrop : (text.dropWhile isJsonBlank).length ≤ text.length := (List.dropWhile_sublist _).length_le
  unfold next? at h
  split at h
  · cases h
  · next c after hcons =>
    rw [hcons, List.length_cons] at hdrop
    split at h
    · cases h
      omega
    · cases h

lemma length_lt_of_string? {text after : List Char} {s : String} (h : string? text = some (s, after)) :
    after.length < text.length := by
  obtain ⟨rest, hnext, h⟩ := Option.bind_eq_some_iff.mp h
  have hrest := length_lt_of_next? hnext
  split at h
  · next cs after' hread =>
    cases h
    have hafter := Unquote.length_lt_of_readRest hread
    omega
  · cases h

lemma length_lt_of_member? {text after : List Char} {m : String × String} (h : member? text = some (m, after)) :
    after.length < text.length := by
  obtain ⟨⟨key, rest⟩, hkey, h⟩ := Option.bind_eq_some_iff.mp h
  obtain ⟨rest', hcolon, h⟩ := Option.bind_eq_some_iff.mp h
  obtain ⟨⟨value, after'⟩, hvalue, h⟩ := Option.bind_eq_some_iff.mp h
  cases h
  have h1 := length_lt_of_string? hkey
  have h2 := length_lt_of_next? hcolon
  have h3 := length_lt_of_string? hvalue
  omega

/-- The members up to the closing brace, of which there is at least one, and what follows the brace. -/
def members? (text : List Char) : Option (List (String × String) × List Char) :=
  match _hmember : member? text with
  | none => none
  | some (m, rest) =>
    match _hcomma : next? ',' rest with
    | some rest' => (members? rest').map fun (ms, after) => (m :: ms, after)
    | none => (next? '\x7d' rest).map fun after => ([m], after)
termination_by text.length
decreasing_by
  have h1 := length_lt_of_member? _hmember
  have h2 := length_lt_of_next? _hcomma
  omega

/-- The members of an object that is the whole text. -/
def read? (text : List Char) : Option (List (String × String)) := do
  let text ← next? '\x7b' text
  let (members, after) ← match next? '\x7d' text with
    | some after => some ([], after)
    | none => members? text
  if after.all isJsonBlank then some members else none

/-! ### Reading what is written -/

section Text

variable (q : String → List Char)

/-- A member without blanks, its texts being written by `q`. -/
def memberText (m : String × String) : List Char :=
  q m.1 ++ ':' :: q m.2

/-- An object of one and more members without blanks. -/
def text (m : String × String) (ms : List (String × String)) : List Char :=
  '\x7b' :: memberText q m ++ ms.flatMap (fun m => ',' :: memberText q m) ++ ['\x7d']

lemma next?_cons {c : Char} (rest : List Char) (hc : isJsonBlank c = false) (wanted : Char) :
    next? wanted (c :: rest) = if c = wanted then some rest else none := by
  unfold next?
  rw [List.dropWhile_cons_of_neg (by simp [hc])]

lemma members?_of_comma {text rest rest' : List Char} {m : String × String} (hmember : member? text = some (m, rest))
    (hcomma : next? ',' rest = some rest') :
    members? text = (members? rest').map fun (ms, after) => (m :: ms, after) := by
  rw [members?]
  split
  · next h =>
    rw [hmember] at h
    cases h
  · next m' rest'' h =>
    rw [hmember] at h
    cases h
    split
    · next h =>
      rw [hcomma] at h
      cases h
      rfl
    · next h =>
      rw [hcomma] at h
      cases h

lemma members?_of_brace {text rest after : List Char} {m : String × String} (hmember : member? text = some (m, rest))
    (hcomma : next? ',' rest = none) (hbrace : next? '\x7d' rest = some after) : members? text = some ([m], after) := by
  rw [members?]
  split
  · next h =>
    rw [hmember] at h
    cases h
  · next m' rest'' h =>
    rw [hmember] at h
    cases h
    split
    · next h =>
      rw [hcomma] at h
      cases h
    · rw [hbrace]
      rfl

variable {q} (hq : ∀ s, Quoted.Quotes s.toList (q s)) (m : String × String) (ms : List (String × String)) (rest : List Char)

include hq

lemma string?_quoted (s : String) : string? (q s ++ rest) = some (s, rest) := by
  obtain ⟨pieces, hpieces, hwritten⟩ := hq s
  have hsplit : q s ++ rest = '"' :: (pieces.flatten ++ '"' :: rest) := by simp [hwritten]
  have hquote : next? '"' (q s ++ rest) = some (pieces.flatten ++ '"' :: rest) := by
    rw [hsplit, next?_cons _ rfl, if_pos rfl]
  simp [string?, hquote, Unquote.readRest_pieces hpieces]

lemma member?_memberText : member? (memberText q m ++ rest) = some (m, rest) := by
  have hsplit : memberText q m ++ rest = q m.1 ++ ':' :: (q m.2 ++ rest) := by simp [memberText]
  have hcolon : next? ':' (':' :: (q m.2 ++ rest)) = some (q m.2 ++ rest) := next?_cons _ rfl _
  simp [hsplit, member?, string?_quoted hq, hcolon]

/-- **The members are read as they were written.** -/
theorem members?_memberText :
    members? (memberText q m ++ ms.flatMap (fun m => ',' :: memberText q m) ++ '\x7d' :: rest) = some (m :: ms, rest) := by
  induction ms generalizing m with
  | nil =>
    rw [List.flatMap_nil, List.append_nil]
    exact members?_of_brace (member?_memberText hq m _) (next?_cons _ rfl _) (next?_cons _ rfl _)
  | cons m' ms ih =>
    have hsplit : memberText q m ++ (m' :: ms).flatMap (fun m => ',' :: memberText q m) ++ '\x7d' :: rest =
        memberText q m ++ ',' :: (memberText q m' ++ ms.flatMap (fun m => ',' :: memberText q m) ++ '\x7d' :: rest) := by
      simp
    rw [hsplit, members?_of_comma (member?_memberText hq m _) (next?_cons _ rfl _), ih]
    rfl

/-- **An object is read as it was written**, whatever blanks follow. -/
theorem read?_text (hblank : rest.all isJsonBlank) : read? (text q m ms ++ rest) = some (m :: ms) := by
  have hsplit : text q m ms ++ rest =
      '\x7b' :: (memberText q m ++ ms.flatMap (fun m => ',' :: memberText q m) ++ '\x7d' :: rest) := by
    simp [text]
  have hopening : next? '\x7b' (text q m ms ++ rest) =
      some (memberText q m ++ ms.flatMap (fun m => ',' :: memberText q m) ++ '\x7d' :: rest) := by
    rw [hsplit, next?_cons _ rfl, if_pos rfl]
  have hmember :
      next? '\x7d' (memberText q m ++ ms.flatMap (fun m => ',' :: memberText q m) ++ '\x7d' :: rest) = none := by
    obtain ⟨pieces, -, hwritten⟩ := hq m.1
    rw [memberText, hwritten]
    exact next?_cons _ rfl _
  rw [read?, hopening, Option.bind_eq_bind, Option.bind_some]
  simp only [hmember, members?_memberText hq]
  exact if_pos hblank

/-- **An object without blanks is on one line.** -/
theorem printable_text : ∀ x ∈ text q m ms, 0x20 ≤ x.toNat := by
  have hmember : ∀ m, ∀ x ∈ memberText q m, 0x20 ≤ x.toNat := by
    intro m
    exact List.forall_mem_append.mpr ⟨(hq m.1).printable, List.forall_mem_cons.mpr ⟨by decide, (hq m.2).printable⟩⟩
  intro x hx
  simp only [text, List.cons_append, List.mem_cons, List.mem_append, List.mem_flatMap, List.not_mem_nil, or_false] at hx
  rcases hx with rfl | (hx | ⟨m', -, rfl | hx⟩) | rfl
  · decide
  · exact hmember m x hx
  · decide
  · exact hmember m' x hx
  · decide

end Text

end StringObject

/-! ### Records -/

namespace Log

/-- Compares members by their keys. -/
def byKey (a b : String × String) : Ordering :=
  compare a.1 b.1

instance : Std.TransCmp byKey :=
  inferInstanceAs (Std.TransCmp (compareOn Prod.fst))

namespace Record

section Writer

variable {ε : Type} {write : String → Except ε String} (hwrite : Quoted.WritesTexts write)

lemma toList_member (field : String × String) :
    (member write field).toList = ',' :: StringObject.memberText (fun s => (quoted write s).toList) field := by
  have hcomma : ("," : String).toList = [','] := rfl
  have hcolon : (":" : String).toList = [':'] := rfl
  simp [member, StringObject.memberText, hcomma, hcolon]

include hwrite

lemma quotes_quoted (text : String) : Quoted.Quotes text.toList (quoted write text).toList := by
  obtain ⟨written, hwritten, hquotes⟩ := hwrite text
  rwa [quoted, hwritten]

/-- **A line is the object of its members**, and the end of the line. -/
theorem toList_lineWith (record : Record) :
    (record.lineWith write).toList = StringObject.text (fun s => (quoted write s).toList) ("event", record.event)
      (("severity", record.severity.name) :: record.sortedFields) ++ ['\n'] := by
  have hplain {s : String} (h : s.toList.all fun c => !decide (Quoted.MustEscape c)) :
      (quoted write s).toList = '"' :: (s.toList ++ ['"']) :=
    (quotes_quoted hwrite s).eq_of_plain (by simpa using h)
  have hevent : (quoted write "event").toList = '"' :: ("event".toList ++ ['"']) := hplain (by decide)
  have hkey : (quoted write "severity").toList = '"' :: ("severity".toList ++ ['"']) := hplain (by decide)
  have hname : (quoted write record.severity.name).toList = '"' :: (record.severity.name.toList ++ ['"']) := by
    refine hplain ?_
    cases record.severity <;> decide
  have hfields : (String.join (record.sortedFields.map (member write))).toList =
      record.sortedFields.flatMap fun field =>
        ',' :: StringObject.memberText (fun s => (quoted write s).toList) field := by
    rw [String.toList_join, List.flatMap_map]
    simp only [toList_member]
  have hopening : ("\x7b\"event\":" : String).toList = '\x7b' :: '"' :: ("event".toList ++ ['"', ':']) := rfl
  have hseverity : (",\"severity\":\"" : String).toList = ',' :: '"' :: ("severity".toList ++ ['"', ':', '"']) := rfl
  have hquote : ("\"" : String).toList = ['"'] := rfl
  have hclosing : ("\x7d\n" : String).toList = ['\x7d', '\n'] := rfl
  simp only [lineWith, String.toList_append, hopening, hseverity, hquote, hfields, hclosing, StringObject.text,
    List.flatMap_cons, StringObject.memberText, hevent, hkey, hname]
  simp

end Writer

/-- Fields whose keys tell them apart are sorted alike, in whatever order they are given. -/
lemma sortedFields_of_perm {record record' : Record} (hkeys : (record.fields.map Prod.fst).Nodup)
    (hperm : record'.fields.Perm record.fields) : record'.sortedFields = record.sortedFields := by
  have hsort : ∀ record : Record, record.sortedFields = stableSort byKey record.fields := fun _ => rfl
  have hpairwise : ∀ fields, (stableSort byKey fields).Pairwise fun a b => (byKey a b).isLE = true :=
    fun fields => List.pairwise_mergeSort (isLE_trans byKey) (isLE_total byKey) fields
  have hmem : ∀ {field fields}, field ∈ stableSort byKey fields → field ∈ fields :=
    fun h => (stableSort_perm byKey _).mem_iff.mp h
  rw [hsort, hsort]
  refine List.Perm.eq_of_pairwise ?_ (hpairwise record'.fields) (hpairwise record.fields)
    ((stableSort_perm _ _).trans (hperm.trans (stableSort_perm _ _).symm))
  intro a b ha hb hab hba
  have hkey : a.1 = b.1 := Std.LawfulEqOrd.eq_of_compare (Std.OrientedCmp.isLE_antisymm hab hba)
  exact List.inj_on_of_nodup_map hkeys (hperm.mem_iff.mp (hmem ha)) (hmem hb) hkey

theorem writesTexts_writer : Quoted.WritesTexts writer := by
  intro text
  refine ⟨quote text, rfl, ?_⟩
  rw [quote, String.toList_ofList]
  exact Quoted.quotes_encode text.toList

end Record

/-- **Lines hold their records**, whatever escapes the writer of their texts takes.  For every severity, every event and all
fields:

* a line has one line break, which is at its end, and no other control character;
* read as an object, it holds the event, the severity and then the fields in the one stable order of their keys;
* fields whose keys are pairwise different may come in any order without a change of the line. -/
theorem lines_hold_their_records {ε : Type} {write : String → Except ε String} (hwrite : Quoted.WritesTexts write)
    (record : Record) :
    (∃ text, (record.lineWith write).toList = text ++ ['\n'] ∧ ∀ c ∈ text, 0x20 ≤ c.toNat) ∧
    (∃ positions : List (Fin record.fields.length),
      (∀ order, IsStableOrder byKey record.fields order ↔ order = positions) ∧
      StringObject.read? (record.lineWith write).toList =
        some (("event", record.event) :: ("severity", record.severity.name) :: positions.map record.fields.get)) ∧
    ∀ fields, (record.fields.map Prod.fst).Nodup → fields.Perm record.fields →
      Record.lineWith write { record with fields := fields } = record.lineWith write := by
  have hquotes := Record.quotes_quoted hwrite
  refine ⟨?_, ?_, ?_⟩
  · exact ⟨_, Record.toList_lineWith hwrite record, StringObject.printable_text hquotes _ _⟩
  · refine ⟨stableOrder byKey record.fields, fun order => isStableOrder_iff byKey record.fields, ?_⟩
    have hsorted : (stableOrder byKey record.fields).map record.fields.get = record.sortedFields :=
      map_get_stableOrder byKey record.fields
    rw [hsorted, Record.toList_lineWith hwrite]
    exact StringObject.read?_text hquotes _ _ _ rfl
  · intro fields hkeys hperm
    have hsorted : Record.sortedFields { record with fields := fields } = record.sortedFields :=
      Record.sortedFields_of_perm hkeys hperm
    rw [Record.lineWith, Record.lineWith, hsorted]

/-- Two fields with characters that are escaped, given in either order, in the lines of the program. -/
theorem lines_hold_their_records_escaped :
    Quoted.WritesTexts Record.writer ∧
    ([("message", "a \"b\"\n"), ("\\", "\x01")].map Prod.fst).Nodup ∧
    [("\\", "\x01"), ("message", "a \"b\"\n")].Perm [("message", "a \"b\"\n"), ("\\", "\x01")] ∧
    Record.line ⟨.warn, "T", [("\\", "\x01"), ("message", "a \"b\"\n")]⟩ =
      Record.line ⟨.warn, "T", [("message", "a \"b\"\n"), ("\\", "\x01")]⟩ ∧
    StringObject.read? (Record.line ⟨.warn, "T", [("message", "a \"b\"\n"), ("\\", "\x01")]⟩).toList =
      some [("event", "T"), ("severity", "WARN"), ("\\", "\x01"), ("message", "a \"b\"\n")] := by
  have hwrite := Record.writesTexts_writer
  obtain ⟨-, ⟨positions, hunique, hread⟩, hpermuted⟩ :=
    lines_hold_their_records hwrite ⟨.warn, "T", [("message", "a \"b\"\n"), ("\\", "\x01")]⟩
  have hkeys : ([("message", "a \"b\"\n"), ("\\", "\x01")].map Prod.fst).Nodup := by decide
  have horder : ([1, 0] : List (Fin 2)) = positions := by
    refine (hunique [1, 0]).mp ⟨by decide, ?_⟩
    unfold InOrder
    decide
  refine ⟨hwrite, hkeys, .swap _ _ _, hpermuted _ hkeys (.swap _ _ _), ?_⟩
  rw [Record.line, hread, ← horder]
  rfl

end Log

end LazyQuery
