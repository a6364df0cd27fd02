import SoulSystem.Library.SortedMap
import SoulSystem.Library.Str

/-!
# Serialised values

A serializer writes a value as a tree of truth values, numbers, strings, arrays and objects, and
reads a value from such a tree.  A codec keeps a value if it reads back what it has written.

The fields of a record may be left out where they have their default.  A record of distinct names
keeps a value if every one of its fields is read back from any object that has what was written
under its name.
-/

namespace SoulSystem.Library.Serde

open Std List

inductive Value where
  | null
  | bool (value : Bool)
  | number (value : ℚ)
  | string (value : Str)
  | array (values : List Value)
  | object (fields : List (Str × Value))

structure Codec (α : Type) where
  write : α → Value
  read : Value → Option α

/-- What is written is read back. -/
def Codec.Keeps {α : Type} (codec : Codec α) (a : α) : Prop :=
  codec.read (codec.write a) = some a

/-- What is written is not read. -/
def Codec.Loses {α : Type} (codec : Codec α) (a : α) : Prop :=
  codec.read (codec.write a) = none

variable {α β : Type}

/-! ## Simple values -/

def bool : Codec Bool where
  write := .bool
  read
    | .bool value => some value
    | _ => none

def str : Codec Str where
  write := .string
  read
    | .string value => some value
    | _ => none

/-- A counter, read from any number that is a natural one. -/
def nat : Codec ℕ where
  write n := .number n
  read
    | .number value => if value.den = 1 ∧ 0 ≤ value.num then some value.num.toNat else none
    | _ => none

def uint64 : Codec UInt64 where
  write n := nat.write n.toNat
  read value := (nat.read value).bind fun n ↦
    if n < 2 ^ 64 then some (UInt64.ofNat n) else none

/-- A choice by its name. -/
def choice (all : List α) (name : α → Str) : Codec α where
  write a := .string (name a)
  read
    | .string value => all.find? fun a ↦ name a == value
    | _ => none

/-- A value under the name of its variant. -/
def tagged (name : Str) (codec : Codec α) : Codec α where
  write a := .object [(name, codec.write a)]
  read
    | .object [(tag, value)] => if tag = name then codec.read value else none
    | _ => none

theorem keeps_bool (value : Bool) : bool.Keeps value := rfl

theorem keeps_str (value : Str) : str.Keeps value := rfl

theorem keeps_nat (n : ℕ) : nat.Keeps n := by
  simp [Codec.Keeps, nat]

theorem keeps_uint64 (n : UInt64) : uint64.Keeps n := by
  have hnat : nat.read (nat.write n.toNat) = some n.toNat := keeps_nat n.toNat
  simp only [Codec.Keeps, uint64, hnat, Option.bind_some]
  rw [if_pos n.toNat_lt, UInt64.ofNat_toNat]

theorem keeps_choice {all : List α} {name : α → Str} (hnodup : (all.map name).Nodup) {a : α}
    (ha : a ∈ all) : (choice all name).Keeps a := by
  induction all with
  | nil => cases ha
  | cons first all ih =>
    rw [map_cons, nodup_cons] at hnodup
    rcases List.mem_cons.mp ha with rfl | hrest
    · simp [Codec.Keeps, choice]
    · have hne : name first ≠ name a := fun heq ↦
        hnodup.1 (heq ▸ mem_map_of_mem hrest)
      have hfound := ih hnodup.2 hrest
      simp only [Codec.Keeps, choice] at hfound ⊢
      rw [find?_cons_of_neg (by simpa using hne), hfound]

theorem keeps_tagged {name : Str} {codec : Codec α} {a : α} (ha : codec.Keeps a) :
    (tagged name codec).Keeps a := by
  simp only [Codec.Keeps, tagged, if_true]
  exact ha

/-! ## Lists and maps -/

def list (codec : Codec α) : Codec (List α) where
  write values := .array (values.map codec.write)
  read
    | .array values => values.mapM codec.read
    | _ => none

/-- A map under its keys, in their order. -/
def map (codec : Codec α) : Codec (ExtTreeMap Str α) where
  write m := .object (m.toList.map fun entry ↦ (entry.1, codec.write entry.2))
  read
    | .object fields =>
      (fields.mapM fun field ↦ (codec.read field.2).map fun a ↦ (field.1, a)).map fun entries ↦
        entries.foldl (fun m entry ↦ m.insert entry.1 entry.2) ∅
    | _ => none

theorem mapM_write {write : α → β} {read : β → Option α} {values : List α}
    (hall : ∀ a ∈ values, read (write a) = some a) :
    (values.map write).mapM read = some values := by
  induction values with
  | nil => rfl
  | cons a values ih =>
    rw [forall_mem_cons] at hall
    rw [map_cons, mapM_cons, hall.1, ih hall.2]
    rfl

theorem keeps_list {codec : Codec α} {values : List α} (hall : ∀ a ∈ values, codec.Keeps a) :
    (list codec).Keeps values :=
  mapM_write hall

/-- One value that is lost loses the list. -/
theorem loses_list {codec : Codec α} {values : List α} {a : α} (ha : a ∈ values)
    (hloses : codec.Loses a) : (list codec).Loses values := by
  simp only [Codec.Loses, list]
  induction values with
  | nil => cases ha
  | cons first values ih =>
    rw [map_cons, mapM_cons]
    rcases List.mem_cons.mp ha with rfl | hrest
    · rw [hloses]
      rfl
    · rw [ih hrest]
      cases codec.read (codec.write first) <;> rfl

theorem keeps_map {codec : Codec α} {m : ExtTreeMap Str α}
    (hall : SortedMap.Every codec.Keeps m) : (map codec).Keeps m := by
  have hentries : (m.toList.map fun entry ↦ (entry.1, codec.write entry.2)).mapM
      (fun field ↦ (codec.read field.2).map fun a ↦ (field.1, a)) = some m.toList := by
    apply mapM_write
    intro entry hentry
    have hkeeps := hall entry.1 entry.2 (ExtTreeMap.mem_toList_iff_getElem?_eq_some.mp hentry)
    rw [Codec.Keeps] at hkeeps
    rw [hkeeps]
    rfl
  simp only [Codec.Keeps, map, hentries, Option.map_some]
  congr 1
  apply ExtTreeMap.ext_getElem?
  intro key
  have hfold := SortedMap.getElem?_foldl_insert_map m id ∅ key
  rw [ExtTreeMap.foldl_eq_foldl_toList, Option.map_id, ExtTreeMap.getElem?_empty] at hfold
  exact hfold.trans Option.or_none

/-! ## Records -/

/-- The fields of a record: what is written under every name, if anything, and how the record is
read from what an object has under its names. -/
structure Record (α : Type) where
  names : List Str
  write : α → List (Str × Option Value)
  read : (Str → Option Value) → Option α
  names_write : ∀ a, (write a).map Prod.fst = names

/-- A record is read back from any object that has its fields. -/
def Record.Keeps (record : Record α) (a : α) : Prop :=
  ∀ look : Str → Option Value, (∀ field ∈ record.write a, look field.1 = field.2) →
    record.read look = some a

/-- A record is read from no object that has its fields. -/
def Record.Loses (record : Record α) (a : α) : Prop :=
  ∀ look : Str → Option Value, (∀ field ∈ record.write a, look field.1 = field.2) →
    record.read look = none

def required (name : Str) (codec : Codec α) : Record α where
  names := [name]
  write a := [(name, some (codec.write a))]
  read look := (look name).bind codec.read
  names_write _ := rfl

/-- A field that is left out where it passes a test, and has its default where it is missing. -/
def defaulted (name : Str) (codec : Codec α) (skip : α → Bool) (default : α) : Record α where
  names := [name]
  write a := [(name, if skip a then none else some (codec.write a))]
  read look :=
    match look name with
    | some value => codec.read value
    | none => some default
  names_write _ := rfl

/-- A field that is left out where there is no value. -/
def optional (name : Str) (codec : Codec α) : Record (Option α) where
  names := [name]
  write a := [(name, a.map codec.write)]
  read look :=
    match look name with
    | some .null | none => some none
    | some value => (codec.read value).map some
  names_write _ := rfl

def Record.pair (first : Record α) (second : Record β) : Record (α × β) where
  names := first.names ++ second.names
  write a := first.write a.1 ++ second.write a.2
  read look := (first.read look).bind fun a ↦ (second.read look).map fun b ↦ (a, b)
  names_write a := by rw [map_append, first.names_write, second.names_write]

/-- The fields of a structure, in the order of its declaration. -/
def Record.as (record : Record α) (build : α → β) (parts : β → α) : Record β where
  names := record.names
  write b := record.write (parts b)
  read look := (record.read look).map build
  names_write b := record.names_write (parts b)

/-- The fields that an object has. -/
def present (fields : List (Str × Option Value)) : List (Str × Value) :=
  fields.filterMap fun field ↦ field.2.map fun value ↦ (field.1, value)

def Record.object (record : Record α) : Codec α where
  write a := .object (present (record.write a))
  read
    | .object fields => record.read fun name ↦ fields.lookup name
    | _ => none

theorem keeps_required {name : Str} {codec : Codec α} {a : α} (ha : codec.Keeps a) :
    (required name codec).Keeps a := by
  intro look hlook
  simp only [required, mem_singleton, forall_eq] at hlook ⊢
  rw [hlook, Option.bind_some]
  exact ha

theorem loses_required {name : Str} {codec : Codec α} {a : α} (ha : codec.Loses a) :
    (required name codec).Loses a := by
  intro look hlook
  simp only [required, mem_singleton, forall_eq] at hlook ⊢
  rw [hlook, Option.bind_some]
  exact ha

theorem keeps_required_str {name : Str} (text : Str) : (required name str).Keeps text :=
  keeps_required (keeps_str text)

theorem keeps_required_nat {name : Str} (n : ℕ) : (required name nat).Keeps n :=
  keeps_required (keeps_nat n)

theorem keeps_required_uint64 {name : Str} (n : UInt64) : (required name uint64).Keeps n :=
  keeps_required (keeps_uint64 n)

theorem keeps_defaulted {name : Str} {codec : Codec α} {skip : α → Bool} {default a : α}
    (ha : codec.Keeps a) (hskip : skip a = true → a = default) :
    (defaulted name codec skip default).Keeps a := by
  intro look hlook
  simp only [defaulted, mem_singleton, forall_eq] at hlook ⊢
  rw [hlook]
  cases hcase : skip a with
  | true => rw [if_pos rfl, hskip hcase]
  | false => exact ha

theorem keeps_optional {name : Str} {codec : Codec α} {a : Option α}
    (ha : ∀ value ∈ a, codec.Keeps value ∧ codec.write value ≠ .null) :
    (optional name codec).Keeps a := by
  intro look hlook
  simp only [optional, mem_singleton, forall_eq] at hlook ⊢
  rw [hlook]
  cases a with
  | none => rfl
  | some value =>
    obtain ⟨hkeeps, hvalue⟩ := ha value rfl
    rw [Codec.Keeps] at hkeeps
    rw [Option.map_some]
    split
    · rename_i hnull
      exact absurd (Option.some.inj hnull) hvalue
    · rename_i hnone
      cases hnone
    · rename_i hsome
      rw [← Option.some.inj hsome, hkeeps, Option.map_some]

theorem Record.Keeps.pair {first : Record α} {second : Record β} {a : α} {b : β}
    (hfirst : first.Keeps a) (hsecond : second.Keeps b) : (first.pair second).Keeps (a, b) := by
  intro look hlook
  simp only [Record.pair, forall_mem_append] at hlook ⊢
  rw [hfirst look hlook.1, hsecond look hlook.2]
  rfl

theorem Record.Loses.pair {first : Record α} {second : Record β} {a : α} {b : β}
    (hloses : first.Loses a ∨ second.Loses b) : (first.pair second).Loses (a, b) := by
  intro look hlook
  simp only [Record.pair, forall_mem_append] at hlook ⊢
  rcases hloses with hfirst | hsecond
  · rw [hfirst look hlook.1]
    rfl
  · rw [hsecond look hlook.2]
    cases first.read look <;> rfl

theorem Record.Loses.as {record : Record α} {build : α → β} {parts : β → α} {b : β}
    (hparts : record.Loses (parts b)) : (record.as build parts).Loses b := by
  intro look hlook
  simp only [Record.as] at hlook ⊢
  rw [hparts look hlook, Option.map_none]

theorem Record.Keeps.as {record : Record α} {build : α → β} {parts : β → α} {b : β}
    (hparts : record.Keeps (parts b)) (hbuild : build (parts b) = b) :
    (record.as build parts).Keeps b := by
  intro look hlook
  simp only [Record.as] at hlook ⊢
  rw [hparts look hlook, Option.map_some, hbuild]

theorem mem_names_of_present {fields : List (Str × Option Value)} {field : Str × Value}
    (hfield : field ∈ present fields) : field.1 ∈ fields.map Prod.fst := by
  obtain ⟨written, hwritten, heq⟩ := List.mem_filterMap.mp hfield
  obtain ⟨value, -, rfl⟩ := Option.map_eq_some_iff.mp heq
  exact mem_map_of_mem hwritten

/-- What is written under a name is found there, also if it is nothing. -/
theorem lookup_present {fields : List (Str × Option Value)} (hnodup : (fields.map Prod.fst).Nodup)
    {name : Str} {written : Option Value} (hfield : (name, written) ∈ fields) :
    (present fields).lookup name = written := by
  induction fields with
  | nil => cases hfield
  | cons first fields ih =>
    rw [map_cons, nodup_cons] at hnodup
    rcases List.mem_cons.mp hfield with rfl | hrest
    · cases written with
      | some value => exact lookup_cons_self
      | none =>
        apply List.lookup_eq_none_iff.mpr
        intro other hother
        rw [bne_iff_ne]
        rintro rfl
        exact hnodup.1 (mem_names_of_present hother)
    · have hne : name ≠ first.1 := fun heq ↦
        hnodup.1 (heq ▸ mem_map_of_mem hrest)
      have hfound := ih hnodup.2 hrest
      obtain ⟨other, value⟩ := first
      cases value with
      | some value =>
        have hother : (name == other) = false := beq_false_of_ne hne
        calc (present ((other, some value) :: fields)).lookup name
            = ((other, value) :: present fields).lookup name := rfl
          _ = (present fields).lookup name := by rw [lookup_cons, hother]
          _ = written := hfound
      | none => exact hfound

/-- The object of a record whose names are distinct has its fields. -/
theorem Record.lookup_object {record : Record α} (hnames : record.names.Nodup) (a : α) :
    ∀ field ∈ record.write a, (present (record.write a)).lookup field.1 = field.2 := by
  intro field hfield
  apply lookup_present _ hfield
  rw [record.names_write]
  exact hnames

theorem Record.Keeps.object {record : Record α} {a : α} (hkeeps : record.Keeps a)
    (hnames : record.names.Nodup) : record.object.Keeps a :=
  hkeeps _ (lookup_object hnames a)

theorem Record.Loses.object {record : Record α} {a : α} (hloses : record.Loses a)
    (hnames : record.names.Nodup) : record.object.Loses a :=
  hloses _ (lookup_object hnames a)

end SoulSystem.Library.Serde
