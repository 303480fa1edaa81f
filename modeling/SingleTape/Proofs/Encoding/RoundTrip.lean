import SingleTape.Encoding
import SingleTape.Proofs.ForStd.ExtTreeMap
import SingleTape.Proofs.Json.Order
import SingleTape.Proofs.Json.Text
import SingleTape.Proofs.Machine.Operations

/-!
# Snapshots as JSON text

A snapshot is read back from its JSON text as it was, whatever names, characters and numbers it
holds, and in whatever order the entries of its maps were written.

There is one law for each type, `Reads`, and each is made from those of the parts.  For a record it
says that every member is found under its name.  For a map it says that the entries that are found
are those of the map in some order, and a map does not depend on the order in which it is built.
A tape is written as two maps by the distance from its origin, so there the numbers of the cells
have to be found again as well.

## Key results

- `Tape.reads`, `Table.reads`, `Program.reads`, `Snapshot.reads`: the law for each type
- `Snapshot.decode_render`: a snapshot is read from its JSON text
- `Snapshot.snapshot_of_restore`: what a restored machine keeps of its snapshot
- `Snapshot.decode_encode`: snapshots, and machines through their snapshots, survive as text
-/

namespace SingleTape

open Json (Reads Reordered)

/-! ## Single values -/

namespace Json

theorem text?_text (s : String) : (Json.text s).text? = some s := by
  simp [Json.text, text?]

theorem reads_text (s : String) : Reads text? (.text s) s :=
  .of_not_obj (by simp [Json.text]) (text?_text s)

theorem reads_char (c : Char) : Reads char? (.char c) c :=
  .of_not_obj (by simp [Json.char]) (by simp [Json.char, char?, onlyChar?])

theorem reads_bool (b : Bool) : Reads bool? (.bool b) b :=
  .of_not_obj (by simp) rfl

theorem reads_count {n : Nat} (h : n < UInt64.size) : Reads count? (.nat n) n := by
  refine .of_not_obj (by simp [Json.nat]) ?_
  show (if n < UInt64.size then some n else none) = some n
  rw [if_pos h]

theorem reads_word (n : UInt64) : Reads word? (.nat n.toNat) n := by
  intro v hv
  rw [word?, reads_count n.toNat_lt v hv, Option.map_some, UInt64.ofNat_toNat]

end Json

theorem StateId.reads (q : StateId) : Reads StateId.ofJson? q.toJson q := by
  refine .of_not_obj (by simp [toJson, Json.text]) ?_
  rw [ofJson?, toJson, Json.text?_text, Option.map_some]

theorem Direction.reads (d : Direction) : Reads Direction.ofJson? d.toJson d := by
  refine .of_not_obj (by simp [toJson, Json.text]) ?_
  have hname : ofName? d.name = some d := by cases d <;> decide
  have hread : ofJson? d.toJson = (Json.text? (.text d.name)).bind ofName? := rfl
  rw [hread, Json.text?_text, Option.bind_some, hname]

theorem Position.reads (p : Position) : Reads Position.ofJson? (.int p.val) p := by
  refine .of_not_obj (by simp) ?_
  rw [ofJson?, Json.int?, Option.bind_some, ofInt?_val]

/-! ## Rules and tables -/

theorem Rule.reads (r : Rule) : Reads Rule.ofJson? r.toJson r := by
  intro v hv
  obtain ⟨field, hfield, hholds⟩ := hv.record? fieldNames rfl (by decide)
  rw [ofJson?, hfield, Option.bind_eq_bind, Option.bind_some,
    hholds.bind_eq "write" (Json.reads_char r.write) (by simp),
    hholds.bind_eq "direction" r.direction.reads (by simp),
    hholds.bind_eq "next_state" r.next.reads (by simp)]
  rfl

/-- A map is built again from its entries, in whatever order they were written. -/
theorem Json.Reordered.exists_ofList {α β : Type} [Ord α] [Std.TransOrd α] [Std.LawfulEqOrd α]
    [DecidableEq α] {value? : Json → Option β} {map : Std.ExtTreeMap α β} {name : α → String}
    {json : β → Json} {v : Json}
    (h : Reordered (.object (map.toList.map fun e => (name e.1, json e.2))) v)
    (key? : Quoted → Option α) (hkey : ∀ k, key? (Quoted.encode (name k).toList) = some k)
    (hvalue : ∀ x, Reads value? (json x) x) :
    ∃ entries, v.entries? key? value? = some entries ∧
      Std.ExtTreeMap.ofList entries compare = map := by
  obtain ⟨entries, hentries, hperm⟩ :=
    h.entries? (fun e _ => hkey e.1) (fun e _ => hvalue e.2)
  rw [List.map_id'' (fun _ => rfl)] at hperm
  exact ⟨entries, hentries, Std.ExtTreeMap.ofList_eq_of_perm hperm.symm⟩

namespace Table

theorem reads_rules (rules : RuleMap) : Reads rulesOfJson? (rulesToJson rules) rules := by
  intro v hv
  obtain ⟨entries, hentries, hmap⟩ := hv.exists_ofList
    (fun key => key.decode?.bind Json.onlyChar?) (by simp [Json.onlyChar?]) Rule.reads
  rw [rulesOfJson?, hentries, Option.bind_eq_bind, Option.bind_some, hmap]
  rfl

theorem reads (t : Table) : Reads Table.ofJson? t.toJson t := by
  intro v hv
  obtain ⟨entries, hentries, hmap⟩ := hv.exists_ofList
    (fun key => key.decode?.map fun cs => ⟨String.ofList cs⟩) (by simp) reads_rules
  rw [ofJson?, hentries, Option.bind_eq_bind, Option.bind_some, hmap]
  rfl

end Table

/-! ## Keys of cells -/

private theorem isPlain_of_isDigit {c : Char} (h : c.isDigit = true) : Json.isPlain c = true := by
  have hle : 0x20 ≤ c.toNat := by
    simp only [Char.isDigit, ge_iff_le, Bool.and_eq_true, decide_eq_true_eq,
      UInt32.le_iff_toNat_le] at h
    exact Nat.le_trans (by decide) h.1
  have hquote : c ≠ '"' := by
    intro hc
    rw [hc] at h
    exact absurd h (by decide)
  have hescape : c ≠ '\\' := by
    intro hc
    rw [hc] at h
    exact absurd h (by decide)
  simp [Json.isPlain, hle, hquote, hescape]

private theorem plain?_encode {cs : List Char} (h : ∀ c ∈ cs, Json.isPlain c = true) :
    (Json.Quoted.encode cs).plain? = some cs := by
  induction cs with
  | nil => rfl
  | cons c cs ih =>
    have hrest := ih fun c hc => h c (by simp [hc])
    rw [Json.Quoted.encode] at hrest ⊢
    rw [List.map_cons, Json.Quoted.piece, dif_pos (h c (by simp)), Json.Quoted.plain?, hrest,
      Option.map_some]

namespace Tape

/-- A key is written without escapes, and without zeros in front. -/
theorem cellKey?_cellKey {n : Nat} (h : n < UInt64.size) :
    cellKey? (Json.Quoted.encode (cellKey n).toList) = some (UInt64.ofNat n) := by
  have hplain : ∀ c ∈ Text.digits n, Json.isPlain c = true :=
    fun c hc => isPlain_of_isDigit (Json.isDigit_of_mem_digits hc)
  rw [cellKey?, cellKey, String.toList_ofList, plain?_encode hplain, Option.bind_eq_bind,
    Option.bind_some, Json.ofCanonicalDigits?_digits]
  simp [h]

/-! ## Tapes -/

/-- The cells of one side are found again, if the cell can be told from its key. -/
theorem exists_sideOfJson? {cells : List (Int × Char)} {v : Json} (number : Int → Nat)
    (cell : UInt64 → Int)
    (hcells : ∀ e ∈ cells, number e.1 < UInt64.size ∧ cell (UInt64.ofNat (number e.1)) = e.1)
    (h : Reordered (.object (cells.map fun e => (cellKey (number e.1), .char e.2))) v) :
    ∃ side, sideOfJson? v = some side ∧ (side.map fun e => (cell e.1, e.2)).Perm cells := by
  obtain ⟨side, hside, hperm⟩ := h.entries?
    (fun e he => cellKey?_cellKey (hcells e he).1) (fun e _ => Json.reads_char e.2)
  have hback : (cells.map fun e => (UInt64.ofNat (number e.1), e.2)).map
      (fun e => (cell e.1, e.2)) = cells := by
    rw [List.map_map]
    conv_rhs => rw [← List.map_id cells]
    refine List.map_congr_left fun e he => ?_
    exact Prod.ext (hcells e he).2 rfl
  have hcellsPerm := hperm.map fun e => (cell e.1, e.2)
  rw [hback] at hcellsPerm
  exact ⟨side, hside, hcellsPerm.symm⟩

private theorem inRange_of_mem_toList {t : Tape} {e : Int × Char} (h : e ∈ t.cells.toList) :
    -0x10000000000000000 ≤ e.1 ∧ e.1 < 0x10000000000000000 := by
  apply t.inRange
  rw [Std.ExtTreeMap.mem_iff_isSome_getElem?,
    Std.ExtTreeMap.mem_toList_iff_getElem?_eq_some.mp h]
  rfl

/-- A cell left of the origin is told from its key. -/
private theorem leftCell_of_mem {t : Tape} {e : Int × Char}
    (h : e ∈ t.cells.toList.filter fun e => e.1 < 0) :
    (-1 - e.1).toNat < UInt64.size ∧ leftCell (UInt64.ofNat (-1 - e.1).toNat) = e.1 := by
  obtain ⟨hmem, hleft⟩ := List.mem_filter.mp h
  have hrange := inRange_of_mem_toList hmem
  have hneg : e.1 < 0 := of_decide_eq_true hleft
  have hsize : UInt64.size = 0x10000000000000000 := rfl
  have hlt : (-1 - e.1).toNat < UInt64.size := by omega
  refine ⟨hlt, ?_⟩
  rw [leftCell, UInt64.toNat_ofNat_of_lt' hlt]
  omega

/-- A cell from the origin on is told from its key. -/
private theorem rightCell_of_mem {t : Tape} {e : Int × Char}
    (h : e ∈ t.cells.toList.filter fun e => 0 ≤ e.1) :
    e.1.toNat < UInt64.size ∧ ((UInt64.ofNat e.1.toNat).toNat : Int) = e.1 := by
  obtain ⟨hmem, hright⟩ := List.mem_filter.mp h
  have hrange := inRange_of_mem_toList hmem
  have hnonneg : 0 ≤ e.1 := of_decide_eq_true hright
  have hsize : UInt64.size = 0x10000000000000000 := rfl
  have hlt : e.1.toNat < UInt64.size := by omega
  refine ⟨hlt, ?_⟩
  rw [UInt64.toNat_ofNat_of_lt' hlt]
  omega

/-- Each cell is on one of the two sides. -/
private theorem sides_perm (t : Tape) :
    ((t.cells.toList.filter fun e => e.1 < 0) ++ t.cells.toList.filter fun e => 0 ≤ e.1).Perm
      t.cells.toList := by
  have hright : (fun e : Int × Char => decide (0 ≤ e.1)) = fun e => !decide (e.1 < 0) := by
    funext e
    simp only [← decide_not, Int.not_lt]
  rw [hright]
  exact List.filter_append_perm _ _

/-- Writing cells one after the other inserts them. -/
private theorem cells_foldl (write : Tape → UInt64 → Char → Tape) (cell : UInt64 → Int)
    (hwrite : ∀ t i c, (write t i c).cells = t.cells.insert (cell i) c)
    (side : List (UInt64 × Char)) (t : Tape) :
    (side.foldl (fun t (i, c) => write t i c) t).cells =
      (side.map fun e => (cell e.1, e.2)).foldl (fun cells e => cells.insert e.1 e.2) t.cells := by
  induction side generalizing t with
  | nil => rfl
  | cons e side ih => rw [List.foldl_cons, ih, List.map_cons, List.foldl_cons, hwrite]

theorem reads (t : Tape) : Reads Tape.ofJson? t.toJson t := by
  intro v hv
  obtain ⟨field, hfield, hholds⟩ := hv.record? fieldNames rfl (by decide)
  obtain ⟨left, hleft, hleftOrder⟩ := hholds "left" _ (.head _)
  obtain ⟨right, hright, hrightOrder⟩ := hholds "right" _ (.tail _ (.head _))
  obtain ⟨leftSide, hleftSide, hleftPerm⟩ := exists_sideOfJson? (fun i => (-1 - i).toNat)
    leftCell (fun _ he => leftCell_of_mem he) hleftOrder
  obtain ⟨rightSide, hrightSide, hrightPerm⟩ := exists_sideOfJson? (fun i => i.toNat)
    (fun i => i.toNat) (fun _ he => rightCell_of_mem he) hrightOrder
  rw [ofJson?, hfield]
  simp only [Option.bind_eq_bind, Option.bind_some, hleft, hright, hleftSide, hrightSide,
    Option.pure_def, Option.some.injEq]
  -- both sides together insert the cells of the tape in some order
  apply Tape.ext
  rw [cells_foldl writeRight (fun i => i.toNat) (fun _ _ _ => rfl),
    cells_foldl writeLeft leftCell (fun _ _ _ => rfl), ← List.foldl_append]
  have hperm := (hleftPerm.append hrightPerm).trans t.sides_perm
  rw [← Std.ExtTreeMap.ofList_eq_of_perm hperm, Std.ExtTreeMap.ofList_eq_foldl]
  rfl

end Tape

/-! ## Programs and snapshots -/

theorem Program.reads (p : Program) : Reads Program.ofJson? p.toJson p := by
  intro v hv
  obtain ⟨field, hfield, hholds⟩ := hv.record? fieldNames rfl (by decide)
  rw [ofJson?, hfield, Option.bind_eq_bind, Option.bind_some,
    hholds.bind_eq "table" p.table.reads (by simp),
    hholds.bind_eq "initial_tape" (Json.reads_text p.initialTape) (by simp),
    hholds.bind_eq "offset" p.offset.reads (by simp)]
  rfl

namespace Snapshot

/-- The count of symbols has no bound of its own, but is written as a 64-bit number. -/
theorem reads {s : Snapshot} (h : s.symbols < UInt64.size) :
    Reads Snapshot.ofJson? s.toJson s := by
  intro v hv
  obtain ⟨field, hfield, hholds⟩ := hv.record? fieldNames rfl (by decide)
  rw [ofJson?, hfield, Option.bind_eq_bind, Option.bind_some,
    hholds.bind_eq "state" s.state.reads (by simp),
    hholds.bind_eq "position" s.position.reads (by simp),
    hholds.bind_eq "transitions" (Json.reads_word s.transitions) (by simp),
    hholds.bind_eq "symbols" (Json.reads_count h) (by simp),
    hholds.bind_eq "last_direction" s.lastDirection.reads (by simp),
    hholds.bind_eq "halted" (Json.reads_bool s.halted) (by simp),
    hholds.bind_eq "tape" s.tape.reads (by simp),
    hholds.bind_eq "program" s.program.reads (by simp),
    hholds.bind_eq "halt_state" s.haltState.reads (by simp),
    hholds.bind_eq "init_state" s.initialState.reads (by simp),
    hholds.bind_eq "blank_symbol" (Json.reads_char s.blank) (by simp),
    hholds.bind_eq "default_timeout" (Json.reads_word s.defaultTimeout) (by simp)]
  rfl

/-- A snapshot is read from its text, whatever the order of members in it. -/
theorem decode_render {s : Snapshot} {v : Json} (h : s.symbols < UInt64.size)
    (hv : Reordered s.toJson v) : decode v.render = .ok s := by
  rw [decode, Json.parse?_render, Option.bind_some, reads h v hv]

/-- A restored machine keeps all of its snapshot but the time budget. -/
theorem snapshot_of_restore {s : Snapshot} {m : Machine} (h : s.restore = .ok m) :
    m.snapshot = { s with defaultTimeout := Config.standard.timeout } := by
  unfold restore at h
  split at h
  · cases h
  · rename_i hcompatible
    split at h
    · cases h
    · cases h
      -- the reserved names and the blank are those in use, or the snapshot would be refused
      simp only [isCompatible, Bool.not_eq_eq_eq_not, Bool.not_true, Bool.not_eq_false,
        Bool.and_eq_true, decide_eq_true_eq] at hcompatible
      obtain ⟨⟨hhalt, hinitial⟩, hblank⟩ := hcompatible
      simp only [Machine.snapshot, machine, ← hhalt, ← hinitial, ← hblank]

/-- **Snapshots as text.**  Every snapshot is read back from its text, in whatever order the members
of objects are written; its count of symbols need only be a 64-bit number, as in the text.  So a
machine that began with a compiled program is restored from the text of its snapshot, whatever was
done with it; and copying a restored machine gives its snapshot again, with only the time budget
set to the standard one. -/
theorem decode_encode :
    (∀ s : Snapshot, s.symbols < UInt64.size →
      decode s.encode = .ok s ∧ ∀ v, Reordered s.toJson v → decode v.render = .ok s) ∧
    (∀ (source tape : String) (offset : Position) (program : Program)
      (ops : List Machine.Operation) (m : Machine),
      Program.compile source tape offset = .ok program →
      (Machine.start program).performAll ops = .ok m → m.symbols < UInt64.size →
      (decode m.snapshot.encode >>= restore) = .ok m) ∧
    ∀ (s : Snapshot) (m : Machine), s.restore = .ok m →
      m.snapshot = { s with defaultTimeout := 10000 } := by
  refine ⟨?_, ?_, ?_⟩
  · intro s hs
    exact ⟨decode_render hs (.same _), fun v hv => decode_render hs hv⟩
  · intro source tape offset program ops m hcompile hm hsymbols
    have htidy := (((Machine.Runs.start hcompile).performAll hcompile ops).1 m hm).tidy
    have hdecode : decode m.snapshot.encode = .ok m.snapshot := decode_render hsymbols (.same _)
    rw [hdecode]
    exact htidy.restore_snapshot
  · intro s m h
    exact snapshot_of_restore h

/-- A program whose symbols are written with escapes, or outside the basic plane. -/
def quoting : Program :=
  match Program.compile "1,\" 2,\\>\n2,_ 2,😀>\n2,\\ H,_" "\"_ \\é" .first with
  | .ok program => program
  | .error _ => ⟨.empty, "", .origin⟩

/-- A snapshot that no machine here has made: names with a quote, a backslash and a control
character, a table that lists a state without rules, cells at both ends, and full counters. -/
def foreign : Snapshot where
  state := ⟨"\"\\\x01"⟩
  position := .first
  transitions := 0xFFFFFFFFFFFFFFFF
  symbols := 0xFFFFFFFFFFFFFFFF
  lastDirection := .left
  halted := true
  tape := (Tape.empty.writeLeft 0xFFFFFFFFFFFFFFFF '\n').writeRight 0xFFFFFFFFFFFFFFFF '😀'
  program :=
    { table := ⟨(Std.ExtTreeMap.empty.insert ⟨""⟩ ∅).insert ⟨"é"⟩
        (Std.ExtTreeMap.empty.insert '"' ⟨'\\', .right, ⟨"\t"⟩⟩)⟩
      initialTape := "\x7f\\u"
      offset := .last }
  haltState := ⟨"😀"⟩
  initialState := ⟨""⟩
  blank := '"'
  defaultTimeout := 0

/-- The object with its members in the opposite order. -/
def backwards : Json → Json
  | .obj members => .obj members.reverse
  | v => v

theorem reordered_backwards (v : Json) : Reordered v (backwards v) := by
  cases v with
  | obj members =>
    have hsame : List.Forall₂ Json.ReorderedMember members members :=
      List.forall₂_same.mpr fun m _ => .value m.1 (.same m.2)
    exact .obj hsame (List.reverse_perm members).symm
  | _ => exact .same _

/-- The foreign snapshot is read from its text in either order; a machine of the quoting program is
restored from the text of its snapshot, and from its snapshot with another time budget. -/
theorem decode_encode_quoting :
    (decode foreign.encode = .ok foreign ∧
      decode (backwards foreign.toJson).render = .ok foreign) ∧
    ∃ m, (Machine.start quoting).performAll [.step, .reset, .run 2, .step] = .ok m ∧
      (decode m.snapshot.encode >>= restore) = .ok m ∧
      { m.snapshot with defaultTimeout := 1 }.restore = .ok m ∧
      m.snapshot = { m.snapshot with defaultTimeout := 10000 } := by
  obtain ⟨hall, hmachines, hrestored⟩ := decode_encode
  have hforeign := hall foreign (by decide)
  refine ⟨⟨hforeign.1, hforeign.2 _ (reordered_backwards _)⟩, ?_⟩
  have hcompile : Program.compile "1,\" 2,\\>\n2,_ 2,😀>\n2,\\ H,_" "\"_ \\é" .first =
      .ok quoting := by decide +kernel
  have hsmall : ((Machine.start quoting).performAll [.step, .reset, .run 2, .step]).toOption.any
      (fun m => m.symbols < UInt64.size) = true := by decide +kernel
  cases hm : (Machine.start quoting).performAll [.step, .reset, .run 2, .step] with
  | error failure =>
    rw [hm] at hsmall
    cases hsmall
  | ok m =>
    have hsymbols : m.symbols < UInt64.size := by
      rw [hm] at hsmall
      exact of_decide_eq_true hsmall
    have hmachine := hmachines _ _ _ _ _ m hcompile hm hsymbols
    -- restoring does not look at the time budget
    have hbudget : { m.snapshot with defaultTimeout := 1 }.restore = .ok m := by
      rw [(hall m.snapshot hsymbols).1] at hmachine
      exact hmachine
    exact ⟨m, rfl, hmachine, hbudget, hrestored _ m hbudget⟩

end Snapshot

end SingleTape
