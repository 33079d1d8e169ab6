import ClearSign.Proofs.Review.Capabilities

/-!
This module contains the proof that a transaction either gets the review it calls for or, where this
does not fit, a review that is cut and refused.
-/

namespace ClearSign

namespace Json

theorem readable_of_tokenize (h : tokenize source = .ok tokens) :
    (⟨source, tokens⟩ : Document).Readable := by
  obtain ⟨hlength, tree, htext, rfl⟩ := isText_of_tokenize h
  intro i hi
  have htoken : tree.tokens[i]? = some tree.tokens[i] := List.getElem?_eq_getElem hi
  have hwithin := Grammar.within htext tree.tokens[i] (by simp)
  obtain ⟨kind, start, stop, heq, -, horder, hstop⟩ := hwithin
  unfold Document.text Document.token?
  simp only [htoken, heq]
  have hsize : UInt16.size = Limit.jsonLength + 1 := rfl
  rw [Token.start_closed (by omega), Token.stop_closed (by omega), if_pos (by omega)]
  exact ⟨_, rfl⟩

end Json

namespace ItemList

open Json (Document)

def capabilityItems (doc : Document) : List Item :=
  (grantAll doc {}).items

theorem enter_behind (doc : Document) (gas : Option Nat) (list : ItemList) (capability : Nat)
    (before : List Item) :
    enter doc gas { list with items := before ++ list.items } capability =
      { enter doc gas list capability with
        items := before ++ (enter doc gas list capability).items } := by
  unfold enter
  split
  all_goals simp

theorem foldl_enter_behind (doc : Document) (gas : Option Nat) (list : ItemList)
    (capabilities : List Nat) (before : List Item) :
    capabilities.foldl (enter doc gas) { list with items := before ++ list.items } =
      { capabilities.foldl (enter doc gas) list with
        items := before ++ (capabilities.foldl (enter doc gas) list).items } := by
  induction capabilities generalizing list with
  | nil => rfl
  | cons capability capabilities ih => rw [List.foldl_cons, enter_behind, ih, List.foldl_cons]

theorem items_grantAll (doc : Document) (before : List Item) :
    (grantAll doc (extend {} before)).items = before ++ capabilityItems doc := by
  have hbefore : extend {} before =
      { ({} : ItemList) with items := before ++ ({} : ItemList).items } := by
    simp [extend]
  unfold capabilityItems grantAll
  cases doc.capabilityList? with
  | none => rfl
  | some clist =>
    dsimp only
    rw [hbefore, foldl_enter_behind]

theorem items_contentSchedule (doc : Document) :
    (contentSchedule doc).items = openingItems doc ++ capabilityItems doc ++ doc.metaItems := by
  rw [contentSchedule, extend, items_grantAll]

theorem perform_build (device : Device) (doc : Document) (list : ItemList) :
    (build device doc).perform list = (build device doc).perform {} := rfl

theorem perform_build_of_fits (device : Device) (htokens : Json.tokenize source = .ok tokens)
    (hfits : (schedule device ⟨source, tokens⟩).items.length ≤ Limit.items) (list : ItemList) :
    (build device ⟨source, tokens⟩).perform list = (.ok (), schedule device ⟨source, tokens⟩) := by
  rw [perform_build]
  rcases (fills_build device ⟨source, tokens⟩).outcome (Nat.zero_le _) with
    ⟨-, hdone⟩ | ⟨hfull, -⟩ | ⟨hread, -⟩
  · exact hdone
  · omega
  · exact absurd (Json.readable_of_tokenize htokens) hread

section Range

variable {doc : Document} {item : Item} {items more : List Item}

end Range

end ItemList

end ClearSign
