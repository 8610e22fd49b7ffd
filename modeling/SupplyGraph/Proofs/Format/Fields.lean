import Mathlib.Data.List.Forall2
import SupplyGraph.Format.Value

/-!
How a map gives the fields of a record. What a field gets are the values that the entries give for it, so neither the
order of the entries counts nor what else is among them.
-/

namespace SupplyGraph.Value

variable {names : List String}

theorem eq_of_ofIndex {found : Option Nat} {index : Nat} (field : key?.ofIndex found = .field index) :
    found = some index := by
  cases found with
  | none => cases field
  | some other => exact congrArg some (Key.field.inj field)

theorem lt_of_key? {key : Value} {index : Nat} (field : key.key? names = some (.field index)) :
    index < names.length := by
  unfold key? at field
  split at field
  case h_1 name => exact (List.findIdx?_eq_some_iff_getElem.mp (eq_of_ofIndex (Option.some.inj field))).1
  case h_2 bytes => exact (List.findIdx?_eq_some_iff_getElem.mp (eq_of_ofIndex (Option.some.inj field))).1
  case h_3 width n => grind
  case h_4 => cases field

theorem getElem?_of_key? {name : String} {index : Nat} (field : (text name).key? names = some (.field index)) :
    names[index]? = some name := by
  obtain ⟨inside, same, -⟩ := List.findIdx?_eq_some_iff_getElem.mp (eq_of_ofIndex (Option.some.inj field))
  rw [List.getElem?_eq_getElem inside, beq_iff_eq.mp same]

def given (names : List String) (index : Nat) (entries : List (Value × Value)) : List Value :=
  entries.filterMap fun entry => if entry.1.key? names = some (.field index) then some entry.2 else none

theorem given_cons (index : Nat) (entry : Value × Value) (entries : List (Value × Value)) :
    given names index (entry :: entries) =
      (if entry.1.key? names = some (.field index) then [entry.2] else []) ++ given names index entries := by
  unfold given
  rw [List.filterMap_cons]
  split_ifs <;> rfl

theorem toList_inj {field other : Option Value} (same : field.toList = other.toList) : field = other := by
  cases field <;> cases other <;> simp_all

theorem given_append (index : Nat) (entries others : List (Value × Value)) :
    given names index (entries ++ others) = given names index entries ++ given names index others :=
  List.filterMap_append

theorem placeEntries_eq_some_iff {fields placed : List (Option Value)} {entries : List (Value × Value)}
    (size : fields.length = names.length) : placeEntries names fields entries = some placed ↔
      (∀ entry ∈ entries, entry.1.key? names ≠ none) ∧ ∀ index : Nat, placed[index]?.map Option.toList =
        fields[index]?.map fun field => field.toList ++ given names index entries := by
  induction entries generalizing fields with
  | nil =>
      have noMore (index : Nat) : (fields[index]?.map fun field => field.toList ++ given names index []) =
          fields[index]?.map Option.toList := by simp [given]
      simp only [noMore, List.not_mem_nil, false_implies, implies_true, true_and]
      constructor
      · rintro ⟨⟩ index
        rfl
      · intro same
        have equal : placed = fields :=
          List.ext_getElem? fun index => Option.map_injective (fun _ _ => toList_inj) (same index)
        rw [placeEntries, equal]
  | cons entry entries ih =>
      obtain ⟨key, value⟩ := entry
      rw [placeEntries, List.forall_mem_cons]
      simp only [given_cons]
      cases isKey : key.key? names with
      | none => simp
      | some meaning =>
          cases meaning with
          | other => simpa using ih size
          | field index =>
              have inside : index < fields.length := size ▸ lt_of_key? isKey
              have there := List.getElem?_eq_getElem inside
              simp only [bind, Option.bind, there]
              cases found : fields[index] with
              | some taken =>
                  -- The field has a value already, and two do not fit.
                  rw [found] at there
                  refine ⟨nofun, fun filled => ?_⟩
                  obtain ⟨field, -, both⟩ := Option.map_eq_some_iff.mp ((filled.2 index).trans (congrArg _ there))
                  simp only [if_true] at both
                  cases field <;> cases both
              | none =>
                  rw [found] at there
                  refine (ih (by rwa [List.length_set])).trans (and_congr (by simp) (forall_congr' fun other => ?_))
                  by_cases same : index = other
                  · subst same
                    simp [inside, found]
                  · simp [same, List.getElem?_set_ne]

theorem fields?_map_iff {entries : List (Value × Value)} {placed : List (Option Value)} :
    (map entries).fields? names = some placed ↔ (∀ entry ∈ entries, entry.1.key? names ≠ none) ∧
      ∀ index : Nat, placed[index]?.map Option.toList = names[index]?.map fun _ => given names index entries := by
  rw [fields?, placeEntries_eq_some_iff (List.length_map _)]
  simp only [List.getElem?_map, Option.map_map, Function.comp_def, Option.toList_none, List.nil_append]

/-- The entries in any order, with entries of any other names among them. -/
def Rearranged (names : List String) (entries others : List (Value × Value)) : Prop :=
  ∃ extras, others.Perm (entries ++ extras) ∧ ∀ entry ∈ extras, ∃ name, entry.1 = .text name ∧ name ∉ names

theorem key?_unknown {name : String} (unknown : name ∉ names) : (text name).key? names = some .other := by
  have absent : names.findIdx? (· == name) = none := by
    rw [List.findIdx?_eq_none_iff]
    intro other member
    rw [beq_eq_false_iff_ne]
    exact fun same => unknown (same ▸ member)
  rw [key?, absent]
  rfl

theorem toList_eq_of_perm {field : Option Value} {values others : List Value} (perm : values.Perm others)
    (same : field.toList = values) : field.toList = others := by
  subst same
  cases field with
  | none => exact (List.nil_perm.mp perm).symm
  | some value => exact List.singleton_perm.mp perm

theorem given_rearranged {entries others : List (Value × Value)} (rearranged : Rearranged names entries others)
    (index : Nat) : (given names index others).Perm (given names index entries) := by
  obtain ⟨extras, perm, unknown⟩ := rearranged
  have nothing : given names index extras = [] := by
    refine List.filterMap_eq_nil_iff.mpr fun entry member => ?_
    obtain ⟨name, key, absent⟩ := unknown entry member
    rw [key, key?_unknown absent]
    exact if_neg nofun
  have all : (given names index others).Perm (given names index (entries ++ extras)) := perm.filterMap _
  rwa [given_append, nothing, List.append_nil] at all

theorem fields?_rearranged {entries others : List (Value × Value)} (rearranged : Rearranged names entries others) :
    (map others).fields? names = (map entries).fields? names := by
  have known : (∀ entry ∈ others, entry.1.key? names ≠ none) ↔ ∀ entry ∈ entries, entry.1.key? names ≠ none := by
    obtain ⟨extras, perm, unknown⟩ := rearranged
    have saysOther : ∀ entry ∈ extras, entry.1.key? names ≠ none := by
      intro entry member
      obtain ⟨name, key, absent⟩ := unknown entry member
      rw [key, key?_unknown absent]
      exact nofun
    simp only [perm.mem_iff, List.forall_mem_append]
    exact and_iff_left saysOther
  have filled (placed : List (Option Value)) (index : Nat) :
      (placed[index]?.map Option.toList = names[index]?.map fun _ => given names index others) ↔
        placed[index]?.map Option.toList = names[index]?.map fun _ => given names index entries := by
    have perm := given_rearranged rearranged index
    cases names[index]? with
    | none => rfl
    | some name =>
        simp only [Option.map_some, Option.map_eq_some_iff]
        exact exists_congr fun field => and_congr_right fun _ => ⟨toList_eq_of_perm perm, toList_eq_of_perm perm.symm⟩
  refine Option.ext fun placed => ?_
  rw [fields?_map_iff, fields?_map_iff, known]
  exact and_congr_right fun _ => forall_congr' (filled placed)

inductive Related (alike : String → Value → Value → Prop) :
    List String → List (Option Value) → List (Option Value) → Prop
  | nil : Related alike [] [] []
  | cons {name : String} {names : List String} {field other : Option Value} {fields others : List (Option Value)}
      (first : Option.Rel (alike name) field other) (rest : Related alike names fields others) :
      Related alike (name :: names) (field :: fields) (other :: others)

def AlikeEntries (alike : String → Value → Value → Prop) (names : List String) :
    List (Value × Value) → List (Value × Value) → Prop :=
  List.Forall₂ fun entry other => entry.1 = other.1 ∧
    ∀ index name, entry.1.key? names = some (.field index) → names[index]? = some name → alike name entry.2 other.2

variable {alike : String → Value → Value → Prop} {fields others : List (Option Value)}

theorem Related.none (names : List String) :
    Related alike names (names.map fun _ => Option.none) (names.map fun _ => Option.none) := by
  induction names with
  | nil => exact .nil
  | cons name names ih => exact .cons .none ih

theorem Related.getElem? (related : Related alike names fields others) {index : Nat} :
    (fields[index]? = some Option.none ↔ others[index]? = some Option.none) := by
  induction related generalizing index with
  | nil => rfl
  | cons first rest ih =>
      cases index with
      | zero => cases first <;> simp
      | succ index => exact ih

theorem Related.set (related : Related alike names fields others) {index : Nat} {value other : Value}
    (same : ∀ name, names[index]? = some name → alike name value other) :
    Related alike names (fields.set index (some value)) (others.set index (some other)) := by
  induction related generalizing index with
  | nil => exact .nil
  | cons first rest ih =>
      cases index with
      | zero => exact .cons (.some (same _ rfl)) rest
      | succ index => exact .cons first (ih same)

theorem placeEntries_alike {entries otherEntries : List (Value × Value)}
    (entriesAlike : AlikeEntries alike names entries otherEntries) (related : Related alike names fields others)
    {placed : List (Option Value)} (places : placeEntries names fields entries = some placed) :
    ∃ otherPlaced, placeEntries names others otherEntries = some otherPlaced ∧
      Related alike names placed otherPlaced := by
  induction entriesAlike generalizing fields others with
  | nil =>
      cases places
      exact ⟨others, rfl, related⟩
  | @cons entry other entries otherEntries same rest ih =>
      obtain ⟨key, value⟩ := entry
      obtain ⟨otherKey, otherValue⟩ := other
      obtain ⟨rfl, valuesAlike⟩ := same
      rw [placeEntries] at places ⊢
      cases isKey : key.key? names with
      | none =>
          rw [isKey] at places
          cases places
      | some meaning =>
          rw [isKey] at places
          cases meaning with
          | other => exact ih related places
          | field index =>
              simp only [bind, Option.bind] at places ⊢
              split at places
              case h_1 free =>
                  rw [related.getElem?.mp free]
                  exact ih (related.set fun name named => valuesAlike index name isKey named) places
              case h_2 => cases places

theorem fields?_alike {entries others : List (Value × Value)} (entriesAlike : AlikeEntries alike names entries others)
    {placed : List (Option Value)} (fields : (map entries).fields? names = some placed) :
    ∃ otherPlaced, (map others).fields? names = some otherPlaced ∧ Related alike names placed otherPlaced :=
  placeEntries_alike entriesAlike (.none names) fields

end SupplyGraph.Value
