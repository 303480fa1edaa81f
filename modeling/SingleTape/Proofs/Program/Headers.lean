import SingleTape.Catalogue
import SingleTape.Proofs.Program.Layout
import SingleTape.Proofs.Program.Offset
import SingleTape.Proofs.Program.Placement

/-!
# Headers of demonstration programs

The lines at the top of a text that begin with `#` are read twice: for what they say of a
demonstration, and as comments of the program.  The two readers share nothing but the division of a
text into lines.

Headers that are written out are read as they were written, whatever order they are in.  And to the
compiler such lines are comments, so a demonstration is compiled as what follows them, but for the
numbers of the lines.

## Key results

- `Demo.headers_append`: headers that are written out are read
- `Demo.foldlM_perm`, `Demo.ofSource_of_perm`: headers with different keys may stand in any order
- `Demo.parse?_of_mem_block`: the compiler takes the lines at the top for comments
- `Table.ofSource_of_blank`: blank lines before a program count, and do nothing else
- `Demo.headers_faithful`: what the headers mean to either reader
-/

namespace SingleTape

/-! ## Lines at the top of a text -/

namespace Text

/-- A text can be cut after any of its lines. -/
theorem exists_eq_append (cs : List Char) (n : Nat) :
    ∃ before after, cs = before ++ after ∧ lines before = (lines cs).take n ∧
      lines after = (lines cs).drop n := by
  induction cs using lines_induction generalizing n with
  | nil => exact ⟨[], [], rfl, by simp, by simp⟩
  | feed cs ih =>
    cases n with
    | zero => exact ⟨[], '\n' :: cs, rfl, rfl, rfl⟩
    | succ n =>
      obtain ⟨before, after, hcs, hbefore, hafter⟩ := ih n
      refine ⟨'\n' :: before, after, by rw [hcs, List.cons_append], ?_, ?_⟩
      · rw [lines_lineFeed, lines_lineFeed, hbefore, List.take_succ_cons]
      · rw [lines_lineFeed, List.drop_succ_cons, hafter]
  | returnFeed cs ih =>
    have hlines : ∀ cs, lines ('\r' :: '\n' :: cs) = [] :: lines cs := fun _ => rfl
    cases n with
    | zero => exact ⟨[], '\r' :: '\n' :: cs, rfl, rfl, rfl⟩
    | succ n =>
      obtain ⟨before, after, hcs, hbefore, hafter⟩ := ih n
      refine ⟨'\r' :: '\n' :: before, after, by rw [hcs]; rfl, ?_, ?_⟩
      · rw [hlines, hlines, hbefore, List.take_succ_cons]
      · rw [hlines, List.drop_succ_cons, hafter]
  | cons c cs hfeed hreturn ih =>
    cases n with
    | zero => exact ⟨[], c :: cs, rfl, rfl, rfl⟩
    | succ n =>
      obtain ⟨before, after, hcs, hbefore, hafter⟩ := ih (n + 1)
      -- the first line of the rest, if there is one, goes on before it
      have hreturn' : c = '\r' → before.head? ≠ some '\n' := by
        intro hc hhead
        obtain ⟨before', rfl⟩ := List.head?_eq_some_iff.mp hhead
        exact hreturn hc (by rw [hcs]; rfl)
      refine ⟨c :: before, after, by rw [hcs, List.cons_append], ?_, ?_⟩
      · rw [lines_cons hfeed hreturn, lines_cons hfeed hreturn', hbefore, List.take_succ_cons]
        cases lines cs <;> simp
      · rw [lines_cons hfeed hreturn, List.drop_succ_cons, hafter]
        cases lines cs <;> simp

end Text

namespace Table

/-- Blank lines before a program change nothing but the numbers of its lines. -/
theorem ofSource_of_blank {blanks : List (List Char)} {source body : List Char}
    (h : ∀ line ∈ blanks, Line.parse? line = some .blank)
    (hlines : Text.lines source = blanks ++ Text.lines body) :
    ofSource source = (ofSource body).mapError (·.renumber (· + blanks.length)) := by
  rw [ofSource_eq_ofStatements, ofSource_eq_ofStatements, hlines, Program.statements_append,
    Program.statements_of_blank h, List.nil_append, Program.statements_add, ofStatements_renumber]

end Table

namespace Demo

/-! ## Written headers -/

/-- A header as it is written. -/
def headerLine (key value : List Char) : List Char :=
  '#' :: ' ' :: (key ++ ':' :: ' ' :: value)

/-- A key and a value that can stand in a header. -/
structure IsHeader (entry : List Char × List Char) : Prop where
  not_mem_key : ':' ∉ entry.1 ∧ '\n' ∉ entry.1
  not_mem_value : '\n' ∉ entry.2
  isTrimmed_key : Text.IsTrimmed entry.1
  isTrimmed_value : Text.IsTrimmed entry.2

theorem splitColon?_append {key : List Char} (h : ':' ∉ key) (value : List Char) :
    splitColon? (key ++ ':' :: value) = some (key, value) := by
  induction key with
  | nil => rfl
  | cons c key ih =>
    rw [List.mem_cons, not_or] at h
    rw [List.cons_append, splitColon?, if_neg (Ne.symm h.1), ih h.2]
    rfl

/-- A line that begins with `#` is trimmed if its end is. -/
private theorem isTrimmed_cons {rest : List Char} (hne : rest ≠ [])
    (h : ∀ c ∈ rest.getLast?, Text.isWhiteSpace c = false) : Text.IsTrimmed ('#' :: rest) := by
  constructor
  · rintro _ ⟨⟩
    rfl
  · rw [List.getLast?_cons_of_ne_nil hne]
    exact h

/-- What is left of a header when it is trimmed. -/
private theorem exists_trim_headerLine (key : List Char) {value : List Char}
    (h : Text.IsTrimmed value) :
    ∃ rest, Text.trim (headerLine key value) = '#' :: ' ' :: (key ++ ':' :: rest) ∧
      Text.trim rest = value := by
  have hspace : ∀ c ∈ [' '], Text.isWhiteSpace c = true :=
    List.forall_mem_singleton.mpr rfl
  by_cases hnil : value = []
  · -- without a value, the line ends with the colon
    subst hnil
    refine ⟨[], ?_, rfl⟩
    have hline : headerLine key [] = '#' :: ' ' :: (key ++ [':']) ++ [' '] := by
      simp [headerLine]
    rw [hline, Text.trim_append_whiteSpace _ hspace]
    apply Text.trim_of_isTrimmed
    apply isTrimmed_cons (List.cons_ne_nil _ _)
    rw [← List.cons_append, List.getLast?_concat]
    rintro _ ⟨⟩
    rfl
  · refine ⟨' ' :: value, ?_, ?_⟩
    · apply Text.trim_of_isTrimmed
      apply isTrimmed_cons (List.cons_ne_nil _ _)
      have hlast : (' ' :: (key ++ ':' :: ' ' :: value)).getLast? = value.getLast? := by
        rw [show ' ' :: (key ++ ':' :: ' ' :: value) = (' ' :: key ++ [':', ' ']) ++ value by simp,
          List.getLast?_append_of_ne_nil _ hnil]
      rw [hlast]
      exact h.last
    · have htrim : Text.trim ([' '] ++ value ++ []) = value := Text.trim_append hspace h (by simp)
      rwa [List.append_nil] at htrim

/-- A header that is written out is read, whatever white space follows it. -/
theorem header?_headerLine {entry : List Char × List Char} (h : IsHeader entry) :
    (Text.trim (headerLine entry.1 entry.2)).head? = some '#' ∧
      header? (Text.trim (headerLine entry.1 entry.2)) = some entry := by
  obtain ⟨key, value⟩ := entry
  obtain ⟨rest, htrim, hrest⟩ := exists_trim_headerLine key h.isTrimmed_value
  have hcolon : ':' ∉ ' ' :: key := by
    rw [List.mem_cons, not_or]
    exact ⟨by decide, h.not_mem_key.1⟩
  have hkey : Text.trim ([' '] ++ key ++ []) = key :=
    Text.trim_append (List.forall_mem_singleton.mpr rfl) h.isTrimmed_key (by simp)
  rw [List.append_nil, List.singleton_append] at hkey
  rw [htrim]
  refine ⟨rfl, ?_⟩
  -- the space after the sign goes with the key, and is trimmed off it
  have hdrop : ('#' :: ' ' :: (key ++ ':' :: rest)).dropWhile (· = '#') =
      (' ' :: key) ++ ':' :: rest := by
    simp
  rw [header?, hdrop, splitColon?_append hcolon, Option.map_some]
  simp only [hkey, hrest]

/-- A line at the top of a text is a header, or it ends the headers. -/
theorem headers_append_lineFeed {line : List Char} (h : '\n' ∉ line) (rest : List Char) :
    headers (line ++ '\n' :: rest) =
      if (Text.trim line).head? = some '#' then
        (header? (Text.trim line)).toList ++ headers rest
      else [] := by
  obtain ⟨first, hlines, hfirst⟩ := Text.exists_lines_append_lineFeed h rest
  have htrim : Text.trim line = Text.trim first := by
    rcases hfirst with rfl | rfl
    · rfl
    · exact Text.trim_append_whiteSpace first (List.forall_mem_singleton.mpr rfl)
  rw [headers, hlines, htrim, List.map_cons, List.takeWhile_cons]
  by_cases hhash : (Text.trim first).head? = some '#'
  · rw [if_pos hhash, if_pos (by simpa using hhash), List.filterMap_cons, headers]
    cases header? (Text.trim first) <;> rfl
  · rw [if_neg hhash, if_neg (by simpa using hhash)]
    rfl

/-- Headers that are written out are read, and then those of what follows. -/
theorem headers_append {entries : List (List Char × List Char)} {lineEnd : List Char}
    (hend : lineEnd = ['\n'] ∨ lineEnd = ['\r', '\n']) (h : ∀ entry ∈ entries, IsHeader entry)
    (body : List Char) :
    headers ((entries.flatMap fun entry => headerLine entry.1 entry.2 ++ lineEnd) ++ body) =
      entries ++ headers body := by
  induction entries with
  | nil => rfl
  | cons entry entries ih =>
    rw [List.forall_mem_cons] at h
    obtain ⟨hhash, hread⟩ := header?_headerLine h.1
    -- a carriage return at the end of the line is white space
    obtain ⟨line, hline, hfeed, htrim⟩ : ∃ line, headerLine entry.1 entry.2 ++ lineEnd =
        line ++ ['\n'] ∧ '\n' ∉ line ∧
        Text.trim line = Text.trim (headerLine entry.1 entry.2) := by
      have hfeed : '\n' ∉ headerLine entry.1 entry.2 := by
        simp [headerLine, h.1.not_mem_key.2, h.1.not_mem_value]
      rcases hend with rfl | rfl
      · exact ⟨_, rfl, hfeed, rfl⟩
      · refine ⟨headerLine entry.1 entry.2 ++ ['\r'], by simp, by simp [hfeed], ?_⟩
        exact Text.trim_append_whiteSpace _ (List.forall_mem_singleton.mpr rfl)
    rw [List.flatMap_cons, hline, List.append_assoc, List.append_assoc, List.singleton_append,
      headers_append_lineFeed hfeed, htrim, if_pos hhash, hread, ih h.2]
    rfl

/-- There are no headers in a text that does not begin with a comment. -/
theorem headers_eq_nil {body : List Char}
    (h : ∀ line ∈ (Text.lines body).head?, (Text.trim line).head? ≠ some '#') :
    headers body = [] := by
  unfold headers
  cases hlines : Text.lines body with
  | nil => rfl
  | cons line rest =>
    -- the first line ends the headers
    have hline := h line (by simp [hlines])
    simp [hline]

/-! ## What headers say -/

/-- What a header does to a demonstration. -/
inductive Means (entry : List Char × List Char) : Prop where
  /-- It names the demonstration. -/
  | name (hkey : String.ofList entry.1 = "name")
      (h : ∀ d : Demo, d.withHeader entry = .ok { d with name := String.ofList entry.2 })
  /-- It gives the initial tape. -/
  | tape (hkey : String.ofList entry.1 = "tape")
      (h : ∀ d : Demo, d.withHeader entry = .ok { d with initialTape := String.ofList entry.2 })
  /-- It gives the place of the tape. -/
  | offset (hkey : String.ofList entry.1 = "offset") (offset : Position)
      (h : ∀ d : Demo, d.withHeader entry = .ok { d with offset })
  /-- It should give the place of the tape, and does not. -/
  | fault (hkey : String.ofList entry.1 = "offset") (e : Error)
      (h : ∀ d : Demo, d.withHeader entry = .error e)
  /-- It has another key. -/
  | nothing (h : ∀ d : Demo, d.withHeader entry = .ok d)

theorem means (entry : List Char × List Char) : Means entry := by
  obtain ⟨key, value⟩ := entry
  by_cases hname : String.ofList key = "name"
  · exact .name hname fun d => by simp only [withHeader, hname]
  · by_cases htape : String.ofList key = "tape"
    · exact .tape htape fun d => by simp only [withHeader, htape]
    · by_cases hoffset : String.ofList key = "offset"
      · cases hparse : Position.parse (String.ofList value) with
        | ok offset =>
          exact .offset hoffset offset fun d => by simp only [withHeader, hoffset, hparse]
        | error e =>
          exact .fault hoffset e fun d => by simp only [withHeader, hoffset, hparse]
      · refine .nothing fun d => ?_
        rw [withHeader]
        split
        · exact absurd ‹_› hname
        · exact absurd ‹_› htape
        · exact absurd ‹_› hoffset
        · rfl

/-- A header leaves the text of the demonstration as it is. -/
theorem withHeader_source {d d' : Demo} {entry : List Char × List Char}
    (h : d.withHeader entry = .ok d') : d'.source = d.source := by
  cases means entry with
  | name _ hd | tape _ hd | offset _ _ hd | nothing hd =>
    cases (hd d).symm.trans h
    rfl
  | fault _ _ hd => cases (hd d).symm.trans h

/-- Headers with different keys may be taken over in either order. -/
theorem withHeader_comm (d : Demo) {entry other : List Char × List Char} (h : entry.1 ≠ other.1) :
    (d.withHeader entry >>= (·.withHeader other)) =
      (d.withHeader other >>= (·.withHeader entry)) := by
  have hne : String.ofList entry.1 ≠ String.ofList other.1 :=
    fun heq => h (String.ofList_injective heq)
  -- each of them changes another part, or both have one key
  cases means entry <;> cases means other <;> simp_all [bind, Except.bind]

/-- Headers with different keys may stand in any order. -/
theorem foldlM_perm {entries entries' : List (List Char × List Char)} (h : entries.Perm entries')
    (hkeys : (entries.map Prod.fst).Nodup) (d : Demo) :
    entries.foldlM withHeader d = entries'.foldlM withHeader d := by
  induction h generalizing d with
  | nil => rfl
  | cons entry _ ih =>
    rw [List.map_cons, List.nodup_cons] at hkeys
    simp only [List.foldlM_cons, ih hkeys.2]
  | swap entry other rest =>
    -- neighbours change places; what comes after them begins with the same demonstration
    have hne : other.1 ≠ entry.1 := by
      rw [List.map_cons, List.map_cons, List.nodup_cons, List.mem_cons, not_or] at hkeys
      exact hkeys.1.1
    simp only [List.foldlM_cons, ← bind_assoc, withHeader_comm d hne]
  | trans h₁ _ ih₁ ih₂ =>
    rw [ih₁ hkeys, ih₂ ((h₁.map Prod.fst).nodup_iff.mp hkeys)]

/-- Headers with different keys that are written out are taken over, whatever order they are in. -/
theorem ofSource_of_perm {entries written : List (List Char × List Char)} {lineEnd body : List Char}
    (hperm : entries.Perm written) (hkeys : (written.map Prod.fst).Nodup)
    (hwritten : ∀ entry ∈ written, IsHeader entry)
    (hend : lineEnd = ['\n'] ∨ lineEnd = ['\r', '\n'])
    (hbody : ∀ line ∈ (Text.lines body).head?, (Text.trim line).head? ≠ some '#') :
    let text := (entries.flatMap fun entry => headerLine entry.1 entry.2 ++ lineEnd) ++ body
    ofSource (String.ofList text) =
      written.foldlM withHeader ⟨"Untitled", String.ofList text, "", .origin⟩ := by
  intro text
  have hread : headers text = entries := by
    rw [headers_append hend fun entry hentry => hwritten entry (hperm.mem_iff.mp hentry),
      headers_eq_nil hbody, List.append_nil]
  rw [ofSource, String.toList_ofList, hread,
    foldlM_perm hperm ((hperm.map Prod.fst).nodup_iff.mpr hkeys)]

/-- No header changes the text of the demonstration. -/
theorem foldlM_source {entries : List (List Char × List Char)} {d d' : Demo}
    (h : entries.foldlM withHeader d = .ok d') : d'.source = d.source := by
  induction entries generalizing d with
  | nil =>
    cases h
    rfl
  | cons entry entries ih =>
    rw [List.foldlM_cons] at h
    cases hfirst : d.withHeader entry with
    | error e =>
      rw [hfirst] at h
      cases h
    | ok d₁ =>
      rw [hfirst] at h
      exact (ih h).trans (withHeader_source hfirst)

/-- The text of a demonstration is the one it was read from. -/
theorem source_of_ofSource {source : String} {d : Demo} (h : ofSource source = .ok d) :
    d.source = source :=
  foldlM_source h

/-! ## Headers as comments -/

/-- The lines of a text that are looked at for headers. -/
def block (source : List Char) : List (List Char) :=
  (Text.lines source).takeWhile fun line => (Text.trim line).head? = some '#'

theorem headers_eq (source : List Char) :
    headers source = ((block source).map Text.trim).filterMap header? := by
  rw [headers, List.takeWhile_map]
  rfl

/-- Those lines are the first ones. -/
theorem block_eq_take (source : List Char) :
    block source = (Text.lines source).take (block source).length :=
  List.prefix_iff_eq_take.mp (List.takeWhile_prefix _)

/-- To the compiler the lines that are looked at for headers are comments. -/
theorem parse?_of_mem_block {source line : List Char} (h : line ∈ block source) :
    Line.parse? line = some .blank := by
  have hhash := List.all_eq_true.mp List.all_takeWhile line h
  rw [decide_eq_true_eq] at hhash
  obtain ⟨rest, hrest⟩ := List.head?_eq_some_iff.mp hhash
  obtain ⟨space, space', hspace, -, hline⟩ := Text.exists_eq_trim line
  rw [hrest, List.append_assoc] at hline
  have htail : Line.IsTail line := ⟨space, hspace, .inr ⟨rest ++ space', hline⟩⟩
  exact Line.parse?_of_form (.blank htail)

/-- A demonstration is compiled as what follows those lines, which only count. -/
theorem compile_of_lines {source : String} {d : Demo} (h : ofSource source = .ok d)
    {body : List Char}
    (hbody : Text.lines body =
      (Text.lines source.toList).drop (block source.toList).length) :
    d.compile = (Program.compile (String.ofList body) d.initialTape d.offset).mapError
      (·.renumber (· + (block source.toList).length)) := by
  have hlines : Text.lines source.toList = block source.toList ++ Text.lines body := by
    calc Text.lines source.toList
      _ = _ ++ _ := (List.take_append_drop (block source.toList).length _).symm
      _ = block source.toList ++ Text.lines body := by rw [← block_eq_take, hbody]
  have htable := Table.ofSource_of_blank (fun line => parse?_of_mem_block) hlines
  rw [Demo.compile, source_of_ofSource h]
  -- the place of the tape is looked at first, and that error has no line number
  cases hfits : Program.fits d.offset d.initialTape.length with
  | false =>
    rw [Program.compile_of_not_fits _ hfits, Program.compile_of_not_fits _ hfits]
    rfl
  | true =>
    rw [Program.compile_of_fits _ hfits, Program.compile_of_fits _ hfits, htable,
      String.toList_ofList]
    cases Table.ofSource body <;> rfl

/-- What a demonstration has to say of itself can stand in headers. -/
private theorem isHeader_of_mem {name tape : String} {offset : Position}
    {entry : List Char × List Char} (hname : '\n' ∉ name.toList)
    (hname' : Text.IsTrimmed name.toList) (htape : '\n' ∉ tape.toList)
    (htape' : Text.IsTrimmed tape.toList)
    (h : entry ∈ [("name".toList, name.toList), ("tape".toList, tape.toList),
      ("offset".toList, Text.signed offset.val)]) : IsHeader entry := by
  have hkeys : Text.IsTrimmed "name".toList ∧ Text.IsTrimmed "tape".toList ∧
      Text.IsTrimmed "offset".toList := by
    decide
  have hfeed : '\n' ∉ Text.signed offset.val := fun hmem =>
    Bool.false_ne_true (Text.isWhiteSpace_of_mem_signed hmem).symm
  simp only [List.mem_cons, List.not_mem_nil, or_false] at h
  rcases h with rfl | rfl | rfl
  · exact ⟨by simp, hname, hkeys.1, hname'⟩
  · exact ⟨by simp, htape, hkeys.2.1, htape'⟩
  · exact ⟨by simp, hfeed, hkeys.2.2, Text.isTrimmed_signed offset.val⟩

/-- **Headers are read as they are written, and do not disturb the program.**

A name, a tape and an offset that are written out above a text, in any order, are those of the
demonstration; the name and the tape may hold colons and number signs, but no line feed and no white
space at either end.

In any text at all the lines that are looked at for headers are comments to the compiler, and the
text is cut after them.  So what is compiled is what follows them: on that tape, at that offset, and
with errors whose line numbers are larger by as many lines as there are above. -/
theorem headers_faithful :
    (∀ (name tape : String) (offset : Position) (entries : List (List Char × List Char))
        (lineEnd body : List Char),
      '\n' ∉ name.toList → Text.IsTrimmed name.toList →
      '\n' ∉ tape.toList → Text.IsTrimmed tape.toList →
      entries.Perm [("name".toList, name.toList), ("tape".toList, tape.toList),
        ("offset".toList, Text.signed offset.val)] →
      (lineEnd = ['\n'] ∨ lineEnd = ['\r', '\n']) →
      (∀ line ∈ (Text.lines body).head?, (Text.trim line).head? ≠ some '#') →
      let text := (entries.flatMap fun entry => headerLine entry.1 entry.2 ++ lineEnd) ++ body
      ofSource (String.ofList text) = .ok ⟨name, String.ofList text, tape, offset⟩) ∧
    ∀ source : String,
      headers source.toList = ((block source.toList).map Text.trim).filterMap header? ∧
      (∀ line ∈ block source.toList, Line.parse? line = some .blank) ∧
      (∃ before body, source.toList = before ++ body ∧ Text.lines before = block source.toList ∧
        Text.lines body = (Text.lines source.toList).drop (block source.toList).length) ∧
      ∀ d, ofSource source = .ok d → ∀ body,
        Text.lines body = (Text.lines source.toList).drop (block source.toList).length →
        d.compile = (Program.compile (String.ofList body) d.initialTape d.offset).mapError
          (·.renumber (· + (block source.toList).length)) := by
  refine ⟨?_, fun source => ⟨headers_eq _, fun line => parse?_of_mem_block, ?_, ?_⟩⟩
  · intro name tape offset entries lineEnd body hname hname' htape htape' hperm hend hbody text
    have hkeys : ["name".toList, "tape".toList, "offset".toList].Nodup := by
      decide
    rw [ofSource_of_perm hperm hkeys (fun entry => isHeader_of_mem hname hname' htape htape') hend
      hbody]
    simp only [List.foldlM_cons, List.foldlM_nil, withHeader, String.ofList_toList,
      Position.parse_signed]
    rfl
  · obtain ⟨before, body, hsource, hbefore, hbody⟩ :=
      Text.exists_eq_append source.toList (block source.toList).length
    exact ⟨before, body, hsource, hbefore.trans (block_eq_take _).symm, hbody⟩
  · intro d hd body hbody
    exact compile_of_lines hd hbody

/-- Three headers in another order, with signs in their values that mean something elsewhere; the
state that is not defined is on the second line after them. -/
theorem headers_faithful_reordered :
    let text := "# offset: -3\r\n# tape: #1:0\r\n# name: Copy: a # b\r\n\n1,0 2,1\n"
    let demo : Demo := ⟨"Copy: a # b", text, "#1:0", ⟨-3, by decide, by decide⟩⟩
    ofSource text = .ok demo ∧
    Program.compile "\n1,0 2,1\n" demo.initialTape demo.offset = .error (.undefinedState ⟨"2"⟩ 2) ∧
    demo.compile = .error (.undefinedState ⟨"2"⟩ 5) := by
  intro text demo
  have hread : ofSource text = .ok demo :=
    headers_faithful.1 "Copy: a # b" "#1:0" ⟨-3, by decide, by decide⟩
      [("offset".toList, "-3".toList), ("tape".toList, "#1:0".toList),
        ("name".toList, "Copy: a # b".toList)]
      ['\r', '\n'] "\n1,0 2,1\n".toList (by decide) (by decide) (by decide) (by decide)
      (by decide) (.inr rfl) (by decide)
  have hbody : Program.compile "\n1,0 2,1\n" demo.initialTape demo.offset =
      .error (.undefinedState ⟨"2"⟩ 2) := by
    decide +kernel
  refine ⟨hread, hbody, ?_⟩
  rw [(headers_faithful.2 text).2.2.2 demo hread "\n1,0 2,1\n".toList (by decide +kernel),
    String.ofList_toList, hbody]
  decide +kernel

end Demo

end SingleTape
