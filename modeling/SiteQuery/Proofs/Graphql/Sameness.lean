import Mathlib.Data.List.Forall2
import Mathlib.Data.List.Perm.Subperm
import SiteQuery.Graphql.Node.Basic

/-!
Equality of values as an equivalence.

`Value.same` compares objects by their keys, so it is an equivalence only between values whose objects have
distinct keys (`Value.Keyed`). Transitivity needs no such care. The proofs go by `Value.Same`, which has a case for
each kind of value.
-/

namespace SiteQuery.Graphql

open Decimal

theorem sameList_iff {Item : Type} {same : Item → Item → Bool} {as bs : List Item} :
    sameList same as bs = true ↔ List.Forall₂ (fun a b => same a b = true) as bs := by
  induction as generalizing bs with
  | nil => cases bs <;> simp [sameList]
  | cons a as ih => cases bs <;> simp [sameList, ih]

theorem sameList_refl {Item : Type} {same : Item → Item → Bool} {items : List Item}
    (reflexive : ∀ item ∈ items, same item item = true) : sameList same items items = true :=
  sameList_iff.mpr (List.forall₂_same.mpr reflexive)

theorem sameList_symm {Item : Type} {same : Item → Item → Bool} {as bs : List Item}
    (symmetric : ∀ a ∈ as, ∀ b, same a b = true → same b a = true)
    (h : sameList same as bs = true) : sameList same bs as = true := by
  rw [sameList_iff] at h ⊢
  induction h with
  | nil => exact .nil
  | cons head _ ih =>
    exact .cons (symmetric _ (by simp) _ head)
      (ih fun a member => symmetric a (List.mem_cons_of_mem _ member))

theorem sameList_trans {Item : Type} {same : Item → Item → Bool} {as bs cs : List Item}
    (transitive : ∀ a ∈ as, ∀ b c, same a b = true → same b c = true → same a c = true)
    (first : sameList same as bs = true) (second : sameList same bs cs = true) :
    sameList same as cs = true := by
  rw [sameList_iff] at first second ⊢
  induction first generalizing cs with
  | nil => exact second
  | cons head _ ih =>
    cases second with
    | cons next rest =>
      exact .cons (transitive _ (by simp) _ _ head next)
        (ih (fun a member => transitive a (List.mem_cons_of_mem _ member)) rest)

namespace Number

theorem same_refl (n : Number) : n.same n = true := by
  cases n <;> simp [same, Binary64.same]

theorem same_symm {a b : Number} (h : a.same b = true) : b.same a = true := by
  cases a <;> cases b <;> simp_all [same, Binary64.same]
  tauto

theorem same_trans {a b c : Number} (first : a.same b = true) (second : b.same c = true) :
    a.same c = true := by
  cases a <;> cases b <;> cases c <;> simp_all [same, Binary64.same]
  rcases first with rfl | first
  · exact second
  · rcases second with rfl | second
    · exact .inr first
    · exact .inr ⟨first.1, second.2⟩

end Number

namespace Value

/-- Values by their parts: what is inside a list or an object comes first. -/
@[elab_as_elim]
theorem inside {motive : Value → Prop} (reference : ∀ name, motive (.reference name))
    (null : motive .null) (number : ∀ n, motive (.number n)) (string : ∀ text, motive (.string text))
    (boolean : ∀ flag, motive (.boolean flag)) (binary : ∀ bytes, motive (.binary bytes))
    (enum : ∀ name, motive (.enum name))
    (list : ∀ items, (∀ item ∈ items, motive item) → motive (.list items))
    (object : ∀ fields, (∀ field ∈ fields, motive field.2) → motive (.object fields))
    (value : Value) : motive value :=
  @Value.rec motive (fun items => ∀ item ∈ items, motive item) (fun fields => ∀ field ∈ fields, motive field.2)
    (fun field => motive field.2)
    reference null number string boolean binary enum list object
    (by simp) (fun _ _ first rest => List.forall_mem_cons.mpr ⟨first, rest⟩)
    (by simp) (fun _ _ first rest => List.forall_mem_cons.mpr ⟨first, rest⟩)
    (fun _ _ inner => inner) value

/-- The keys of every object are distinct. -/
inductive Keyed : Value → Prop
  | reference (name : String) : Keyed (.reference name)
  | null : Keyed .null
  | number (n : Number) : Keyed (.number n)
  | string (text : String) : Keyed (.string text)
  | boolean (flag : Bool) : Keyed (.boolean flag)
  | binary (bytes : List UInt8) : Keyed (.binary bytes)
  | enum (name : String) : Keyed (.enum name)
  | list {items : List Value} (inner : ∀ item ∈ items, Keyed item) : Keyed (.list items)
  | object {fields : List (String × Value)} (distinct : (fields.map (·.1)).Nodup)
      (inner : ∀ field ∈ fields, Keyed field.2) : Keyed (.object fields)

theorem sameItems_eq (xs ys : List Value) : sameItems xs ys = sameList same xs ys := by
  induction xs generalizing ys with
  | nil => cases ys <;> rfl
  | cons x xs ih =>
    cases ys with
    | nil => rfl
    | cons y ys => exact congrArg (same x y && ·) (ih ys)

/-- Values that are the same: of one kind, with the same inside. -/
inductive Same : Value → Value → Prop
  | reference (name : String) : Same (.reference name) (.reference name)
  | null : Same .null .null
  | number {m n : Number} (same : m.same n = true) : Same (.number m) (.number n)
  | string (text : String) : Same (.string text) (.string text)
  | boolean (flag : Bool) : Same (.boolean flag) (.boolean flag)
  | binary (bytes : List UInt8) : Same (.binary bytes) (.binary bytes)
  | enum (name : String) : Same (.enum name) (.enum name)
  | list {xs ys : List Value} (inner : sameList same xs ys = true) : Same (.list xs) (.list ys)
  | object {xs ys : List (String × Value)} (size : xs.length = ys.length) (inner : sameFields xs ys = true) :
      Same (.object xs) (.object ys)

theorem same_iff {a b : Value} : a.same b = true ↔ Same a b := by
  constructor
  · intro h
    cases a <;> cases b <;> simp only [same, beq_iff_eq, Bool.false_eq_true, Bool.and_eq_true] at h
    case reference.reference => exact h ▸ .reference _
    case null.null => exact .null
    case number.number => exact .number h
    case string.string => exact h ▸ .string _
    case boolean.boolean => exact h ▸ .boolean _
    case binary.binary => exact h ▸ .binary _
    case enum.enum => exact h ▸ .enum _
    case list.list => exact .list (sameItems_eq _ _ ▸ h)
    case object.object => exact .object h.1 h.2
  · intro h
    cases h with
    | number same => exact same
    | list inner => exact (sameItems_eq _ _).trans inner
    | object size inner => simp [same, size, inner]
    | _ => simp [same]

theorem mem_of_field? {key : String} {fields : List (String × Value)} {value : Value}
    (found : field? key fields = some value) : (key, value) ∈ fields := by
  induction fields with
  | nil => simp [field?] at found
  | cons field rest ih =>
    obtain ⟨other, first⟩ := field
    by_cases h : other = key
    · simp_all [field?]
    · simp only [field?, h, if_false] at found
      exact List.mem_cons_of_mem _ (ih found)

theorem field?_of_mem {key : String} {fields : List (String × Value)} {value : Value}
    (distinct : (fields.map (·.1)).Nodup) (member : (key, value) ∈ fields) :
    field? key fields = some value := by
  induction fields with
  | nil => simp at member
  | cons field rest ih =>
    obtain ⟨other, first⟩ := field
    simp only [List.map_cons, List.nodup_cons] at distinct
    rcases List.mem_cons.mp member with same | inRest
    · obtain ⟨rfl, rfl⟩ := Prod.mk.inj same
      simp [field?]
    · have different : other ≠ key := by
        rintro rfl
        exact distinct.1 (List.mem_map_of_mem (f := (·.1)) inRest)
      simp [field?, different, ih distinct.2 inRest]

theorem sameFields_iff (xs ys : List (String × Value)) :
    sameFields xs ys = true ↔ ∀ field ∈ xs, ∃ other, field? field.1 ys = some other ∧ same field.2 other = true := by
  induction xs with
  | nil => simp [sameFields]
  | cons field rest ih =>
    obtain ⟨key, value⟩ := field
    cases h : field? key ys <;> simp [sameFields, h, ih]

/-- Objects of one size that agree on distinct keys have the same keys. -/
theorem keys_perm {xs ys : List (String × Value)} (distinct : (xs.map (·.1)).Nodup)
    (size : xs.length = ys.length) (h : sameFields xs ys = true) :
    List.Perm (xs.map (·.1)) (ys.map (·.1)) := by
  apply (List.subperm_of_subset distinct ?_).perm_of_length_le (by simp [size])
  intro key member
  obtain ⟨field, inFields, rfl⟩ := List.mem_map.mp member
  obtain ⟨other, found, -⟩ := (sameFields_iff xs ys).mp h field inFields
  exact List.mem_map_of_mem (f := (·.1)) (mem_of_field? found)

theorem same_refl {value : Value} (keyed : value.Keyed) : value.same value = true := by
  induction value using inside with
  | reference name => exact same_iff.mpr (.reference name)
  | null => exact same_iff.mpr .null
  | number n => exact same_iff.mpr (.number n.same_refl)
  | string text => exact same_iff.mpr (.string text)
  | boolean flag => exact same_iff.mpr (.boolean flag)
  | binary bytes => exact same_iff.mpr (.binary bytes)
  | enum name => exact same_iff.mpr (.enum name)
  | list items ih =>
    cases keyed with
    | list inner => exact same_iff.mpr (.list (sameList_refl fun item member => ih item member (inner item member)))
  | object fields ih =>
    cases keyed with
    | object distinct inner =>
      refine same_iff.mpr (.object rfl ((sameFields_iff _ _).mpr fun field member => ?_))
      exact ⟨field.2, field?_of_mem distinct member, ih field member (inner field member)⟩

theorem same_symm {a b : Value} (keyed : a.Keyed) (h : a.same b = true) : b.same a = true := by
  induction a using inside generalizing b with
  | reference | null | string | boolean | binary | enum =>
    cases same_iff.mp h
    exact h
  | number n =>
    cases same_iff.mp h with
    | number same => exact same_iff.mpr (.number (Number.same_symm same))
  | list items ih =>
    cases keyed with
    | list inner =>
      cases same_iff.mp h with
      | list agree =>
        exact same_iff.mpr (.list
          (sameList_symm (fun item member other => ih item member (inner item member)) agree))
  | object fields ih =>
    cases keyed with
    | object distinct inner =>
      cases same_iff.mp h with
      | @object _ others size agree =>
        refine same_iff.mpr (.object size.symm ((sameFields_iff _ _).mpr fun other member => ?_))
        have perm := keys_perm distinct size agree
        have named := perm.mem_iff.mpr (List.mem_map_of_mem (f := (·.1)) member)
        obtain ⟨field, inFields, key⟩ := List.mem_map.mp named
        obtain ⟨found, atKey, same⟩ := (sameFields_iff _ _).mp agree field inFields
        rw [key, field?_of_mem (perm.nodup_iff.mp distinct) member] at atKey
        cases atKey
        rw [← key]
        exact ⟨field.2, field?_of_mem distinct inFields, ih field inFields (inner field inFields) same⟩

theorem same_trans {a b c : Value} (first : a.same b = true) (second : b.same c = true) :
    a.same c = true := by
  induction a using inside generalizing b c with
  | reference | null | string | boolean | binary | enum =>
    cases same_iff.mp first
    exact second
  | number n =>
    cases same_iff.mp first with
    | number same =>
      cases same_iff.mp second with
      | number next => exact same_iff.mpr (.number (Number.same_trans same next))
  | list items ih =>
    cases same_iff.mp first with
    | list agree =>
      cases same_iff.mp second with
      | list next => exact same_iff.mpr (.list (sameList_trans (fun item member _ _ => ih item member) agree next))
  | object fields ih =>
    cases same_iff.mp first with
    | object size agree =>
      cases same_iff.mp second with
      | object nextSize next =>
        refine same_iff.mpr (.object (size.trans nextSize) ((sameFields_iff _ _).mpr fun field member => ?_))
        obtain ⟨middle, found, same⟩ := (sameFields_iff _ _).mp agree field member
        obtain ⟨last, foundLast, onward⟩ := (sameFields_iff _ _).mp next _ (mem_of_field? found)
        exact ⟨last, foundLast, ih field member same onward⟩

end Value

namespace Argument

def Keyed (argument : Argument) : Prop := argument.value.Keyed

theorem same_refl {argument : Argument} (keyed : argument.Keyed) : argument.same argument = true := by
  simp [same, Value.same_refl keyed]

theorem same_symm {a b : Argument} (keyed : a.Keyed) (h : a.same b = true) : b.same a = true := by
  simp only [same, Bool.and_eq_true, beq_iff_eq] at h ⊢
  exact ⟨h.1.symm, Value.same_symm keyed h.2⟩

theorem same_trans {a b c : Argument} (first : a.same b = true) (second : b.same c = true) :
    a.same c = true := by
  simp only [same, Bool.and_eq_true, beq_iff_eq] at first second ⊢
  exact ⟨first.1.trans second.1, Value.same_trans first.2 second.2⟩

end Argument

namespace Directive

def Keyed (directive : Directive) : Prop := ∀ argument ∈ directive.arguments, argument.Keyed

theorem same_refl {directive : Directive} (keyed : directive.Keyed) : directive.same directive = true := by
  simp only [same, beq_self_eq_true, Bool.true_and]
  exact sameList_refl fun argument member => Argument.same_refl (keyed argument member)

theorem same_symm {a b : Directive} (keyed : a.Keyed) (h : a.same b = true) : b.same a = true := by
  simp only [same, Bool.and_eq_true, beq_iff_eq] at h ⊢
  exact ⟨h.1.symm, sameList_symm (fun argument member _ => Argument.same_symm (keyed argument member)) h.2⟩

end Directive

end SiteQuery.Graphql
