import ClearSign.Json.Document
import ClearSign.Proofs.Json.Recognition

/-!
This module contains the proof that the children found by comparing positions in the flat list of
tokens are the children in the tree.
-/

namespace ClearSign.Json

mutual

def Tree.subtree? : Tree → (i : Nat) → Option Tree
  | .node token children, 0 => some (.node token children)
  | .node _ children, i + 1 => Forest.subtree? children i

def Forest.subtree? : Forest → (i : Nat) → Option Tree
  | [], _ => none
  | tree :: trees, i =>
    if i < tree.tokens.length then tree.subtree? i
    else Forest.subtree? trees (i - tree.tokens.length)

end

def Forest.indices (i : Nat) : Forest → List Nat
  | [] => []
  | tree :: trees => i :: indices (i + tree.tokens.length) trees

mutual

theorem Tree.lt_of_subtree? {tree found : Tree} {i : Nat} (h : tree.subtree? i = some found) :
    i < tree.tokens.length := by
  cases tree with
  | node token children =>
    rw [Tree.tokens_node, List.length_cons]
    cases i with
    | zero => exact Nat.succ_pos _
    | succ i =>
      rw [Tree.subtree?] at h
      exact Nat.succ_lt_succ (Forest.lt_of_subtree? h)

theorem Forest.lt_of_subtree? {trees : Forest} {found : Tree} {i : Nat}
    (h : Forest.subtree? trees i = some found) : i < (Forest.tokens trees).length := by
  cases trees with
  | nil => simp [Forest.subtree?] at h
  | cons tree trees =>
    rw [Forest.tokens_cons, List.length_append]
    rw [Forest.subtree?] at h
    split at h
    · omega
    · have := Forest.lt_of_subtree? h
      omega

end

mutual

theorem Tree.exists_subtree? (tree : Tree) {i : Nat} (h : i < tree.tokens.length) :
    ∃ found, tree.subtree? i = some found := by
  cases tree with
  | node token children =>
    cases i with
    | zero => exact ⟨_, rfl⟩
    | succ i =>
      rw [Tree.tokens_node, List.length_cons] at h
      exact Forest.exists_subtree? children (Nat.lt_of_succ_lt_succ h)

theorem Forest.exists_subtree? (trees : Forest) {i : Nat} (h : i < (Forest.tokens trees).length) :
    ∃ found, Forest.subtree? trees i = some found := by
  cases trees with
  | nil => simp at h
  | cons tree trees =>
    rw [Forest.tokens_cons, List.length_append] at h
    rw [Forest.subtree?]
    split
    · next hi => exact Tree.exists_subtree? tree hi
    · exact Forest.exists_subtree? trees (by omega)

end

theorem Token.start_closed {start : Nat} (h : start < UInt16.size) (kind : Kind) (stop : Nat) :
    (closed kind start stop).start = start := by
  simp only [Token.start, closed]
  rw [UInt16.toNat_ofNat_of_lt' h]

theorem Token.stop_closed {stop : Nat} (h : stop < UInt16.size) (kind : Kind) (start : Nat) :
    (closed kind start stop).stop = stop := by
  simp only [Token.stop, closed]
  rw [UInt16.toNat_ofNat_of_lt' h]

inductive Laid : (low high : Nat) → Forest → Prop where
  | nil (low high : Nat) : low ≤ high → Laid low high []
  | cons (low inner mid high : Nat) (kind : Token.Kind) (start stop : Nat)
      (children trees : Forest) :
      low ≤ start → start ≤ inner → Laid inner stop children → start < mid → stop ≤ mid →
      (kind = .string ∨ kind = .primitive → children = []) → Laid mid high trees →
      Laid low high (.node (.closed kind start stop) children :: trees)

namespace Laid

theorem low_le_high (h : Laid low high trees) : low ≤ high := by
  induction h with
  | nil low high h => exact h
  | cons low inner mid high kind start stop children trees hlow hinner hchildren hmid hstop hleaf
      htrees ihChildren ihTrees => omega

theorem mono (h : Laid low high trees) (hlow : low' ≤ low) (hhigh : high ≤ high') :
    Laid low' high' trees := by
  induction h generalizing low' with
  | nil low high h => exact .nil _ _ (by omega)
  | cons low inner mid high kind start stop children trees hstart hinner hchildren hmid hstop hleaf
      htrees ihChildren ihTrees =>
    exact .cons _ inner mid _ kind start stop children trees (by omega) hinner hchildren hmid hstop
      hleaf (ihTrees (Nat.le_refl _) hhigh)

theorem append (h : Laid low mid trees) (h' : Laid mid high trees') :
    Laid low high (trees ++ trees') := by
  induction h with
  | nil low mid h => exact h'.mono h (Nat.le_refl _)
  | cons low inner next mid kind start stop children trees hstart hinner hchildren hnext hstop hleaf
      htrees ihChildren ihTrees =>
    exact .cons low inner next _ kind start stop children _ hstart hinner hchildren hnext hstop hleaf
      (ihTrees h')

theorem leaf (kind : Token.Kind) {low start stop high : Nat} (hlow : low ≤ start)
    (horder : start ≤ stop) (hstart : start < high) (hstop : stop ≤ high) :
    Laid low high [.leaf kind start stop] :=
  .cons low stop high high kind start stop [] [] hlow horder (.nil _ _ (Nat.le_refl _)) hstart hstop
    (fun _ => rfl) (.nil _ _ (Nat.le_refl _))

end Laid

theorem Grammar.laid {part : Part} (h : Grammar part pos text trees) :
    Laid pos (pos + text.length) trees := by
  induction h with
  | string pos text hcontents =>
    apply Laid.leaf
    · omega
    · omega
    all_goals
      simp only [quoted, List.length_append, List.length_singleton]
      omega
  | primitive pos text hprimitive =>
    cases hprimitive with
    | mk c text hc htext => apply Laid.leaf <;> simp
  | empty container pos blank hblank =>
    apply Laid.cons pos (pos + 1) (pos + blank.length + 2) _ _ _ _ [] []
    · omega
    · omega
    · exact .nil _ _ (by omega)
    · omega
    · omega
    · simp
    · exact .nil _ _ (by simp; omega)
  | filled container pos text trees htrees ih =>
    apply Laid.cons pos (pos + 1) (pos + text.length + 2) _ _ _ _ trees []
    · omega
    · omega
    · exact ih.mono (Nat.le_refl _) (by omega)
    · omega
    · omega
    · cases container <;> simp [Container.kind]
    · exact .nil _ _ (by simp; omega)
  | element pos before text after trees hbefore hvalue hafter ih =>
    apply ih.mono
    · omega
    · simp only [List.length_append]
      omega
  | member pos before key gap text trees hbefore hkey hgap hvalue ih =>
    have hlabel : Laid pos (pos + before.length + key.length + gap.length + 3)
        [.leaf .string (pos + before.length + 1) (pos + before.length + 1 + key.length)] := by
      apply Laid.leaf <;> omega
    apply (hlabel.append ih).mono
    · omega
    · simp only [quoted, List.length_append, List.length_singleton]
      omega
  | one container pos text trees hentry ih => exact ih
  | more container pos text next trees nextTrees hentries hentry ih ihNext =>
    apply (ih.append (ihNext.mono (Nat.le_succ _) (Nat.le_refl _))).mono
    · omega
    · simp only [List.length_append, List.length_singleton]
      omega

namespace Laid

theorem start_lt (h : Laid low high trees) (hhigh : high < UInt16.size) :
    ∀ token ∈ trees.tokens, low ≤ token.start ∧ token.start < high := by
  induction h with
  | nil => simp
  | cons low inner mid high kind start stop children trees hlow hinner hchildren hmid hstop hleaf
      htrees ihChildren ihTrees =>
    have hmidHigh := htrees.low_le_high
    intro token htoken
    simp only [Forest.tokens_cons, Tree.tokens_node, List.cons_append, List.mem_cons,
      List.mem_append] at htoken
    rcases htoken with rfl | htoken | htoken
    · rw [Token.start_closed (by omega)]
      omega
    · have := ihChildren (by omega) token htoken
      omega
    · have := ihTrees hhigh token htoken
      omega

end Laid

namespace Laid

theorem exists_of_subtree? {children : Forest} (h : Laid low high trees) (hhigh : high < UInt16.size)
    (hsubtree : Forest.subtree? trees i = some (.node token children)) :
    ∃ before after kind start stop inner,
      trees.tokens = before ++ token :: (children.tokens ++ after) ∧ before.length = i ∧
        token = .closed kind start stop ∧ start ≤ inner ∧ Laid inner stop children ∧
        (kind = .string ∨ kind = .primitive → children = []) ∧ low ≤ start ∧ stop ≤ high ∧
        ∀ other ∈ after, start ≤ other.start ∧ stop ≤ other.start := by
  induction h generalizing i with
  | nil => simp [Forest.subtree?] at hsubtree
  | cons low inner mid high kind start stop inside trees hlow hinner hchildren hmid hstop hleaf
      htrees ihChildren ihTrees =>
    have hmidHigh := htrees.low_le_high
    have hbehind : ∀ other ∈ trees.tokens, mid ≤ other.start := by
      intro other hother
      exact (htrees.start_lt hhigh other hother).1
    rw [Forest.subtree?] at hsubtree
    split at hsubtree
    · cases i with
      | zero =>
        cases hsubtree
        refine ⟨[], trees.tokens, kind, start, stop, inner, rfl, rfl, rfl, hinner, hchildren, hleaf,
          hlow, by omega, ?_⟩
        intro other hother
        have := hbehind other hother
        omega
      | succ i =>
        rw [Tree.subtree?] at hsubtree
        obtain ⟨before, after, kind', start', stop', inner', htokens, hlength, htoken, hinner',
          hchildren', hleaf', hlow', hhigh', hafter⟩ := ihChildren (by omega) hsubtree
        refine ⟨.closed kind start stop :: before, after ++ trees.tokens, kind', start', stop',
          inner', ?_, by simp [hlength], htoken, hinner', hchildren', hleaf', by omega, by omega, ?_⟩
        · simp [htokens]
        · intro other hother
          rw [List.mem_append] at hother
          rcases hother with hother | hother
          · exact hafter other hother
          · have := hbehind other hother
            have := hchildren'.low_le_high
            omega
    · next hlength =>
      obtain ⟨before, after, kind', start', stop', inner', htokens, hbefore, htoken, hinner',
        hchildren', hleaf', hlow', hhigh', hafter⟩ := ihTrees hhigh hsubtree
      refine ⟨Tree.tokens (.node (.closed kind start stop) inside) ++ before, after, kind', start',
        stop', inner', ?_, ?_, htoken, hinner', hchildren', hleaf', by omega, hhigh', hafter⟩
      · simp [htokens]
      · rw [List.length_append, hbefore]
        omega

end Laid

namespace Document

theorem siblings_pairwise (stop i taken : Nat) (tokens : List Token) :
    (siblings stop i taken tokens).Pairwise (· < ·) := by
  induction tokens generalizing i taken with
  | nil => exact .nil
  | cons token tokens ih =>
    rw [siblings]
    split
    · exact .nil
    · split
      · exact ih (i + 1) taken
      · refine .cons ?_ (ih (i + 1) token.stop)
        intro c hc
        exact (lt_of_mem_siblings hc).1

theorem children_nodup (doc : Document) (i : Nat) : (doc.children i).Nodup := by
  unfold children
  split
  · exact List.nodup_nil
  · exact (siblings_pairwise _ _ _ _).imp Nat.ne_of_lt

theorem siblings_append {tokens : List Token}
    (h : ∀ token ∈ tokens, token.start < taken ∧ token.start < stop) (i : Nat)
    (rest : List Token) :
    siblings stop i taken (tokens ++ rest) = siblings stop (i + tokens.length) taken rest := by
  induction tokens generalizing i with
  | nil => rfl
  | cons token tokens ih =>
    have htoken := h token (by simp)
    rw [List.cons_append, siblings, if_neg (by omega), if_pos htoken.1, ih]
    · rw [List.length_cons]
      congr 1
      omega
    · intro other hother
      exact h other (by simp [hother])

theorem siblings_eq_nil {rest : List Token} (h : ∀ token ∈ rest, stop ≤ token.start) (i taken : Nat) :
    siblings stop i taken rest = [] := by
  cases rest with
  | nil => rfl
  | cons token rest =>
    have htoken := h token (by simp)
    rw [siblings, if_pos htoken]

theorem siblings_of_laid (h : Laid low high trees) (hhigh : high ≤ stop)
    (hstop : stop < UInt16.size) (htaken : taken ≤ low)
    (hrest : ∀ token ∈ rest, stop ≤ token.start) (i : Nat) :
    siblings stop i taken (trees.tokens ++ rest) = trees.indices i := by
  induction h generalizing i taken with
  | nil => exact siblings_eq_nil hrest i taken
  | cons low inner mid high kind start last children trees hlow hinner hchildren hmid hlast hleaf
      htrees ihChildren ihTrees =>
    have hmidHigh := htrees.low_le_high
    have hinside : ∀ token ∈ children.tokens, token.start < last ∧ token.start < stop := by
      intro token htoken
      have := hchildren.start_lt (by omega) token htoken
      omega
    -- the first token is taken, those inside of it are passed over, and the rest is left to the
    -- induction
    rw [Forest.tokens_cons, Tree.tokens_node, List.cons_append, List.cons_append, siblings]
    rw [Token.start_closed (by omega), Token.stop_closed (by omega)]
    rw [if_neg (by omega), if_neg (by omega), List.append_assoc, siblings_append hinside]
    rw [ihTrees hhigh hlast, Forest.indices, Tree.tokens_node, List.length_cons]
    congr 2
    omega

theorem children_of_subtree? {text : Bytes} {tree : Tree} {inside : Forest} (htext : IsText text tree)
    (hlength : text.length < Limit.jsonLength)
    (hsubtree : tree.subtree? i = some (.node token inside)) :
    (⟨text, tree.tokens⟩ : Document).token? i = some token ∧
      (⟨text, tree.tokens⟩ : Document).children i = Forest.indices (i + 1) inside := by
  have hsize : 0 + text.length < UInt16.size := by
    rw [Nat.zero_add]
    exact Nat.lt_trans hlength (by decide)
  have hforest : Forest.subtree? [tree] i = some (.node token inside) := by
    rw [Forest.subtree?, if_pos (Tree.lt_of_subtree? hsubtree)]
    exact hsubtree
  obtain ⟨before, after, kind, start, stop, inner, htokens, rfl, rfl, hinner, hinside, hleaf, -,
    hstop, hafter⟩ := (Grammar.laid htext).exists_of_subtree? hsize hforest
  have horder := hinside.low_le_high
  rw [Forest.tokens_cons, Forest.tokens_nil, List.append_nil] at htokens
  have htoken : (⟨text, tree.tokens⟩ : Document).token? before.length =
      some (.closed kind start stop) := by
    simp [token?, htokens]
  have hdrop : tree.tokens.drop (before.length + 1) = inside.tokens ++ after := by
    rw [htokens, List.append_cons, List.drop_left' (by simp)]
  refine ⟨htoken, ?_⟩
  unfold children
  rw [htoken]
  dsimp only
  rw [hdrop, Token.start_closed (by omega), Token.stop_closed (by omega)]
  split
  · apply siblings_of_laid hinside (Nat.le_refl _) (by omega) hinner
    intro other hother
    exact (hafter other hother).2
  · next hcontainer =>
    have hnil : inside = [] := by
      apply hleaf
      cases kind <;> simp [Token.closed, Token.isContainer] at hcontainer ⊢
    subst hnil
    rw [Forest.tokens_nil, List.nil_append, siblings_eq_nil]
    · rfl
    · intro other hother
      exact (hafter other hother).1

end Document

end ClearSign.Json
