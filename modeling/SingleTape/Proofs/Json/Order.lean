import Mathlib.Data.List.Forall2
import Mathlib.Data.List.Nodup
import Mathlib.Data.List.Perm.Basic
import SingleTape.Json.Record

/-!
# The order of members

The members of an object have no order of their own: whoever writes a map may list its entries as
they come.  This file says what it means that two values differ in the order of members only, in
objects inside of objects, and shows that the readers of records and maps do not see the difference.

A reader is then followed type by type through `Reads`: it finds a value of the type in whatever
differs from the written value in that order only.

## Key results

- `Json.Reads.of_not_obj`: a value that is no object has only one form
- `Json.Reordered.record?`: the members of a record are found by their names in any order
- `Json.Reordered.entries?`: the entries of a map are found in some order
-/

namespace SingleTape.Json

/-! ## Lists of results -/

private theorem mapM_eq_some_iff_forall₂ {α β : Type} {f : α → Option β} {l : List α}
    {ys : List β} : l.mapM f = some ys ↔ List.Forall₂ (fun x y => f x = some y) l ys := by
  induction l generalizing ys with
  | nil => simp [eq_comm]
  | cons x l ih =>
    simp only [List.mapM_cons, Option.bind_eq_bind, Option.bind_eq_some_iff, Option.pure_def,
      Option.some.injEq, List.forall₂_cons_left_iff]
    grind

/-- What is read from each item of a list is read from them in any order. -/
private theorem exists_mapM_of_perm {α β : Type} {f : α → Option β} {l l' : List α} {ys : List β}
    (hperm : l.Perm l') (hl : l.mapM f = some ys) :
    ∃ ys', l'.mapM f = some ys' ∧ ys.Perm ys' := by
  obtain ⟨ys', hys', hperm'⟩ :=
    List.perm_comp_forall₂ hperm.symm (mapM_eq_some_iff_forall₂.mp hl)
  exact ⟨ys', mapM_eq_some_iff_forall₂.mpr hys', hperm'.symm⟩

/-! ## Values up to the order of members -/

mutual

/-- The values differ in the order of members only, also of the objects that are members. -/
inductive Reordered : Json → Json → Prop where
  | same (v : Json) : Reordered v v
  | obj {members middle members' : List (Quoted × Json)}
      (hmembers : List.Forall₂ ReorderedMember members middle) (hperm : middle.Perm members') :
      Reordered (.obj members) (.obj members')

/-- The members have one name, and their values differ in the order of members only. -/
inductive ReorderedMember : Quoted × Json → Quoted × Json → Prop where
  | value (name : Quoted) {v v' : Json} (h : Reordered v v') :
      ReorderedMember (name, v) (name, v')

end

theorem Reordered.exists_obj {members : List (Quoted × Json)} {v : Json}
    (h : Reordered (.obj members) v) : ∃ middle members', v = .obj members' ∧
      List.Forall₂ (fun m m' => m.1 = m'.1 ∧ Reordered m.2 m'.2) members middle ∧
      middle.Perm members' := by
  cases h with
  | same =>
    refine ⟨members, members, rfl, ?_, .refl _⟩
    exact List.forall₂_same.mpr fun m _ => ⟨rfl, .same m.2⟩
  | obj hmembers hperm =>
    refine ⟨_, _, rfl, hmembers.imp ?_, hperm⟩
    rintro _ _ ⟨name, hvalue⟩
    exact ⟨rfl, hvalue⟩

/-- The reader finds `x` in what was written, in whatever order the members stand. -/
def Reads {α : Type} (read? : Json → Option α) (written : Json) (x : α) : Prop :=
  ∀ v, Reordered written v → read? v = some x

/-- A value that is no object has only one form. -/
theorem Reads.of_not_obj {α : Type} {read? : Json → Option α} {written : Json} {x : α}
    (hobj : ∀ members, written ≠ .obj members) (h : read? written = some x) :
    Reads read? written x := by
  intro v hv
  cases hv with
  | same => exact h
  | obj => exact absurd rfl (hobj _)

/-! ## Records -/

/-- The member with a name is found wherever it stands, if no name occurs twice. -/
private theorem find?_eq_some_of_mem {members : List (String × Json)} {name : String} {v : Json}
    (hnames : (members.map Prod.fst).Nodup) (h : (name, v) ∈ members) :
    (members.find? fun m => m.1 = name) = some (name, v) := by
  cases hfind : members.find? fun m => m.1 = name with
  | none => simpa using List.find?_eq_none.mp hfind (name, v) h
  | some m =>
    have hname : m.1 = name := by simpa using List.find?_some hfind
    rw [List.inj_on_of_nodup_map hnames (List.mem_of_find?_eq_some hfind) h hname]

private theorem atMostOne_of_nodup {members : List (String × Json)}
    (hnames : (members.map Prod.fst).Nodup) (name : String) : atMostOne members name = true := by
  have hcount := List.nodup_iff_count_le_one.mp hnames name
  rw [List.count, List.countP_map] at hcount
  simpa [atMostOne, Function.comp_def, beq_eq_decide] using hcount

/-- The names of an object's members are decoded, and its values taken as they are. -/
private theorem exists_decodedMembers? {fields : List (String × Json)}
    {middle : List (Quoted × Json)}
    (h : List.Forall₂ (fun m m' => Quoted.encode m.1.toList = m'.1 ∧ Reordered m.2 m'.2)
      fields middle) :
    ∃ members, decodedMembers? middle = some members ∧
      fields.map Prod.fst = members.map Prod.fst ∧
      ∀ name v, (name, v) ∈ fields → ∃ v', (name, v') ∈ members ∧ Reordered v v' := by
  induction h with
  | nil => exact ⟨[], rfl, rfl, by simp⟩
  | @cons m m' _ _ hm _ ih =>
    obtain ⟨members, hmembers, hnames, hvalues⟩ := ih
    refine ⟨(m.1, m'.2) :: members, ?_, by simp [hnames], ?_⟩
    · rw [decodedMembers?] at hmembers ⊢
      simp [List.mapM_cons, ← hm.1, hmembers]
    · intro name v hmem
      rcases List.mem_cons.mp hmem with rfl | hmem
      · exact ⟨m'.2, by simp, hm.2⟩
      · obtain ⟨v', hmem', hv⟩ := hvalues name v hmem
        exact ⟨v', by simp [hmem'], hv⟩

/-- Each listed member is found under its name, up to the order of members inside of it. -/
def Holds (field : Fields) (fields : List (String × Json)) : Prop :=
  ∀ name w, (name, w) ∈ fields → ∃ w', field name = some w' ∧ Reordered w w'

/-- **Records.** Each member of a record is found by its name, in whatever order they stand. -/
theorem Reordered.record? {fields : List (String × Json)} {v : Json}
    (h : Reordered (.object fields) v) (names : List String)
    (hfields : fields.map Prod.fst = names) (hnames : names.Nodup) :
    ∃ field, v.record? names = some field ∧ Holds field fields := by
  obtain ⟨middle, written, rfl, hmiddle, hperm⟩ := h.exists_obj
  rw [List.forall₂_map_left_iff] at hmiddle
  obtain ⟨inOrder, hinOrder, hsame, hvalues⟩ := exists_decodedMembers? hmiddle
  obtain ⟨members, hmembers, hperm'⟩ := exists_mapM_of_perm hperm hinOrder
  -- reordering leaves the names distinct
  have hdistinct : (members.map Prod.fst).Nodup := by
    rw [← hfields, hsame] at hnames
    exact (hperm'.map Prod.fst).nodup_iff.mp hnames
  refine ⟨fun name => (members.find? fun m => m.1 = name).map (·.2), ?_, ?_⟩
  · have hall : names.all (atMostOne members) = true :=
      List.all_eq_true.mpr fun name _ => atMostOne_of_nodup hdistinct name
    rw [← decodedMembers?] at hmembers
    simp only [Json.record?, hmembers, hall, Option.bind_eq_bind, Option.bind_some, ↓reduceIte,
      Option.pure_def]
  · intro name w hmem
    obtain ⟨w', hmem', hw⟩ := hvalues name w hmem
    have hfind := find?_eq_some_of_mem hdistinct (hperm'.mem_iff.mp hmem')
    exact ⟨w', by simp only [hfind, Option.map_some], hw⟩

/-- Reading goes on with what a reader finds under a name. -/
theorem Holds.bind_eq {α β : Type} {field : Fields} {fields : List (String × Json)}
    {read? : Json → Option α} {w : Json} {x : α} (h : Holds field fields) (name : String)
    (hread : Reads read? w x) (hmem : (name, w) ∈ fields) (next : α → Option β) :
    (field name >>= fun w => read? w >>= next) = next x := by
  obtain ⟨w', hfield, hw⟩ := h name w hmem
  simp [hfield, hread w' hw]

/-! ## Maps -/

/-- **Maps.** The entries of a map are found, each with its key and its value, in some order. -/
theorem Reordered.entries? {α β γ : Type} {key? : Quoted → Option α} {value? : Json → Option β}
    {entries : List γ} {name : γ → String} {json : γ → Json} {key : γ → α} {value : γ → β}
    {v : Json}
    (hkey : ∀ e ∈ entries, key? (Quoted.encode (name e).toList) = some (key e))
    (hvalue : ∀ e ∈ entries, Reads value? (json e) (value e))
    (h : Reordered (.object (entries.map fun e => (name e, json e))) v) :
    ∃ found, v.entries? key? value? = some found ∧
      (entries.map fun e => (key e, value e)).Perm found := by
  obtain ⟨middle, written, rfl, hmiddle, hperm⟩ := h.exists_obj
  rw [List.map_map, List.forall₂_map_left_iff] at hmiddle
  -- by induction on the entries as they are listed; their order as written comes last
  have hinOrder : (Json.obj middle).entries? key? value? =
      some (entries.map fun e => (key e, value e)) := by
    clear h hperm
    induction hmiddle with
    | nil => rfl
    | @cons e m entries middle hm _ ih =>
      have hk : key? m.1 = some (key e) := hm.1 ▸ hkey e (by simp)
      have hv : value? m.2 = some (value e) := hvalue e (by simp) m.2 hm.2
      have hrest := ih (fun e he => hkey e (by simp [he])) (fun e he => hvalue e (by simp [he]))
      rw [Json.entries?] at hrest ⊢
      rw [List.mapM_cons, hrest]
      simp [hk, hv]
  exact exists_mapM_of_perm hperm hinOrder

end SingleTape.Json
