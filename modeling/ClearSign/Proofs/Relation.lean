import Mathlib.Data.List.Forall2

/-!
This module contains what lists and options have in common if they are related part by part.
-/

namespace ClearSign

variable {related : α → β → Prop}

theorem rel_filter {o : Option α} {o' : Option β} {p : α → Bool} {q : β → Bool}
    (h : Option.Rel related o o') (hpq : ∀ a b, related a b → p a = q b) :
    Option.Rel related (o.filter p) (o'.filter q) := by
  cases h with
  | none => exact .none
  | some h =>
    rw [Option.filter_some, Option.filter_some, hpq _ _ h]
    split
    · exact .some h
    · exact .none

theorem rel_map {o : Option α} {o' : Option β} {f : α → γ} {g : β → δ} {after : γ → δ → Prop}
    (h : Option.Rel related o o') (hfg : ∀ a b, related a b → after (f a) (g b)) :
    Option.Rel after (o.map f) (o'.map g) := by
  cases h with
  | none => exact .none
  | some h => exact .some (hfg _ _ h)

theorem rel_bind {o : Option α} {o' : Option β} {f : α → Option γ} {g : β → Option δ}
    {after : γ → δ → Prop} (h : Option.Rel related o o')
    (hfg : ∀ a b, related a b → Option.Rel after (f a) (g b)) :
    Option.Rel after (o.bind f) (o'.bind g) := by
  cases h with
  | none => exact .none
  | some h => exact hfg _ _ h

theorem eq_none_iff_of_rel {o : Option α} {o' : Option β} (h : Option.Rel related o o') :
    o = none ↔ o' = none := by
  cases h with
  | none => simp
  | some h => simp

theorem any_eq_of_rel {o : Option α} {o' : Option β} {p : α → Bool} {q : β → Bool}
    (h : Option.Rel related o o') (hpq : ∀ a b, related a b → p a = q b) : o.any p = o'.any q := by
  cases h with
  | none => rfl
  | some h => exact hpq _ _ h

theorem rel_getElem? {l : List α} {l' : List β} (h : List.Forall₂ related l l') (n : Nat) :
    Option.Rel related l[n]? l'[n]? := by
  induction h generalizing n with
  | nil => exact .none
  | cons h hrest ih =>
    cases n with
    | zero => exact .some h
    | succ n => exact ih n

theorem rel_find? {l : List α} {l' : List β} {p : α → Bool} {q : β → Bool}
    (h : List.Forall₂ related l l') (hpq : ∀ a b, related a b → p a = q b) :
    Option.Rel (fun a b => related a b ∧ p a) (l.find? p) (l'.find? q) := by
  induction h with
  | nil => exact .none
  | cons h hrest ih =>
    rw [List.find?_cons, List.find?_cons, ← hpq _ _ h]
    split
    · next hp => exact .some ⟨h, hp⟩
    · exact ih

theorem rel_or {o o₁ : Option α} {o' o₁' : Option β} (h : Option.Rel related o o')
    (h₁ : Option.Rel related o₁ o₁') : Option.Rel related (o.or o₁) (o'.or o₁') := by
  cases h with
  | none => exact h₁
  | some h => exact .some h

theorem findSome?_cons_eq_or (f : α → Option γ) (a : α) (l : List α) :
    (a :: l).findSome? f = (f a).or (l.findSome? f) := by
  rw [List.findSome?_cons]
  cases f a with
  | none => rfl
  | some c => rfl

theorem findSome?_congr {l : List α} {f g : α → Option γ} (h : ∀ a ∈ l, f a = g a) :
    l.findSome? f = l.findSome? g := by
  induction l with
  | nil => rfl
  | cons a l ih =>
    rw [List.forall_mem_cons] at h
    rw [findSome?_cons_eq_or, findSome?_cons_eq_or, h.1, ih h.2]

theorem rel_findSome? {l : List α} {l' : List β} {f : α → Option γ} {g : β → Option δ}
    {after : γ → δ → Prop} (h : List.Forall₂ related l l')
    (hfg : ∀ b ∈ l', ∀ a, related a b → Option.Rel after (f a) (g b)) :
    Option.Rel after (l.findSome? f) (l'.findSome? g) := by
  induction h with
  | nil => exact .none
  | cons h hrest ih =>
    rw [List.forall_mem_cons] at hfg
    rw [findSome?_cons_eq_or, findSome?_cons_eq_or]
    exact rel_or (hfg.1 _ h) (ih hfg.2)

theorem forall_mem_of_forall₂ {l : List α} {l' : List β} {p : α → Prop}
    (h : List.Forall₂ related l l') (hp : ∀ b ∈ l', ∀ a, related a b → p a) : ∀ a ∈ l, p a := by
  induction h with
  | nil => simp
  | cons h hrest ih =>
    rw [List.forall_mem_cons] at hp ⊢
    exact ⟨hp.1 _ h, ih hp.2⟩

theorem forall₂_concat_iff {l : List α} {l' : List β} :
    List.Forall₂ related (l ++ [a]) l' ↔
      ∃ front b, l' = front ++ [b] ∧ List.Forall₂ related l front ∧ related a b := by
  rw [← List.forall₂_reverse_iff, List.reverse_append, List.reverse_singleton,
    List.singleton_append, List.forall₂_cons_left_iff]
  constructor
  · rintro ⟨b, front, hab, hfront, hreverse⟩
    refine ⟨front.reverse, b, ?_, ?_, hab⟩
    · rw [List.reverse_eq_iff.1 hreverse, List.reverse_cons]
    · rw [← List.forall₂_reverse_iff, List.reverse_reverse]
      exact hfront
  · rintro ⟨front, b, rfl, hfront, hab⟩
    exact ⟨b, front.reverse, hab, List.forall₂_reverse_iff.2 hfront, List.reverse_concat ..⟩

theorem any_eq_of_forall₂ {l : List α} {l' : List β} {p : α → Bool} {q : β → Bool}
    (h : List.Forall₂ related l l') (hpq : ∀ a b, related a b → p a = q b) :
    l.any p = l'.any q := by
  induction h with
  | nil => rfl
  | cons h hrest ih => rw [List.any_cons, List.any_cons, hpq _ _ h, ih]

theorem all_zip_eq_of_forall₂ {l : List α} {l' : List β} {keys : List γ} {p : α × γ → Bool}
    {q : β × γ → Bool} (h : List.Forall₂ related l l')
    (hpq : ∀ a b key, related a b → p (a, key) = q (b, key)) :
    (l.zip keys).all p = (l'.zip keys).all q := by
  induction h generalizing keys with
  | nil => rfl
  | cons h hrest ih =>
    cases keys with
    | nil => rfl
    | cons key keys =>
      rw [List.zip_cons_cons, List.zip_cons_cons, List.all_cons, List.all_cons, hpq _ _ _ h, ih]

end ClearSign
