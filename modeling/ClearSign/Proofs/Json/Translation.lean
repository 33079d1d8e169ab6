import ClearSign.Proofs.Json.Navigation
import ClearSign.Proofs.Json.Value

/-!
This module contains the proof that the tokens of a value depend on its own text only. Where the
value stands moves all of them by the same distance.
-/

namespace ClearSign.Json

def Token.shift (offset : UInt16) (token : Token) : Token :=
  { token with first := token.first + offset, last := token.last + offset }

theorem Token.closed_eq_shift {start stop : Nat} (kind : Kind)
    (hstart : UInt16.ofNat start' = UInt16.ofNat start + offset)
    (hstop : UInt16.ofNat stop' = UInt16.ofNat stop + offset) :
    closed kind start' stop' = (closed kind start stop).shift offset := by
  rw [closed, hstart, hstop]
  rfl

theorem ofNat_add_eq_shift {pos start : Nat} {offset : UInt16}
    (h : UInt16.ofNat pos = UInt16.ofNat start + offset) (n : Nat) :
    UInt16.ofNat (pos + n) = UInt16.ofNat (start + n) + offset := by
  rw [UInt16.ofNat_add, UInt16.ofNat_add, h, UInt16.add_assoc, UInt16.add_assoc,
    UInt16.add_comm offset]

theorem Grammar.translate {part : Part} {start : Nat} (h : Grammar part pos text trees)
    (hoffset : UInt16.ofNat pos = UInt16.ofNat start + offset) :
    ∃ trees', Grammar part start text trees' ∧
      trees.tokens = trees'.tokens.map (Token.shift offset) ∧ trees'.height = trees.height := by
  induction h generalizing start with
  | string pos text hcontents =>
    have hstart := ofNat_add_eq_shift hoffset 1
    refine ⟨_, .string start text hcontents, ?_, rfl⟩
    rw [Tree.leaf, Token.closed_eq_shift _ hstart (ofNat_add_eq_shift hstart _)]
    simp [Tree.leaf]
  | primitive pos text hprimitive =>
    refine ⟨_, .primitive start text hprimitive, ?_, rfl⟩
    rw [Tree.leaf, Token.closed_eq_shift _ hoffset (ofNat_add_eq_shift hoffset _)]
    simp [Tree.leaf]
  | empty container pos blank hblank =>
    refine ⟨_, .empty container start blank hblank, ?_, rfl⟩
    rw [Nat.add_assoc, Token.closed_eq_shift _ hoffset (ofNat_add_eq_shift hoffset _)]
    simp [Nat.add_assoc]
  | filled container pos text trees htrees ih =>
    obtain ⟨trees', htrees', htokens, hheight⟩ := ih (ofNat_add_eq_shift hoffset 1)
    refine ⟨_, .filled container start text trees' htrees', ?_, ?_⟩
    · rw [Nat.add_assoc, Token.closed_eq_shift _ hoffset (ofNat_add_eq_shift hoffset _)]
      simp [Nat.add_assoc, htokens]
    · rw [Scanner.height_container, Scanner.height_container, hheight]
  | element pos before text after trees hbefore hvalue hafter ih =>
    obtain ⟨trees', hvalue', htokens, hheight⟩ := ih (ofNat_add_eq_shift hoffset _)
    exact ⟨trees', .element start before text after trees' hbefore hvalue' hafter, htokens, hheight⟩
  | member pos before key gap text trees hbefore hkey hgap hvalue ih =>
    have hquote := ofNat_add_eq_shift (ofNat_add_eq_shift hoffset before.length) 1
    have hinside := ofNat_add_eq_shift (ofNat_add_eq_shift
      (ofNat_add_eq_shift (ofNat_add_eq_shift hoffset before.length) key.length) gap.length) 3
    obtain ⟨trees', hvalue', htokens, hheight⟩ := ih hinside
    refine ⟨_, .member start before key gap text trees' hbefore hkey hgap hvalue', ?_, ?_⟩
    · rw [Tree.leaf, Token.closed_eq_shift _ hquote (ofNat_add_eq_shift hquote _)]
      simp [Tree.leaf, htokens]
    · simp [Tree.leaf, hheight, Token.closed, Token.isContainer]
  | one container pos text trees hentry ih =>
    obtain ⟨trees', hentry', htokens, hheight⟩ := ih hoffset
    exact ⟨trees', .one container start text trees' hentry', htokens, hheight⟩
  | more container pos text next trees nextTrees hentries hentry ih ihNext =>
    have hnext := ofNat_add_eq_shift (ofNat_add_eq_shift hoffset text.length) 1
    obtain ⟨trees', hentries', htokens, hheight⟩ := ih hoffset
    obtain ⟨nextTrees', hentry', hnextTokens, hnextHeight⟩ := ihNext hnext
    refine ⟨_, .more container start text next trees' nextTrees' hentries' hentry', ?_, ?_⟩
    · simp [htokens, hnextTokens]
    · simp [hheight, hnextHeight]

theorem Forest.subtree?_append (first second : Forest) (i : Nat) :
    subtree? (first ++ second) i =
      if i < (tokens first).length then subtree? first i
      else subtree? second (i - (tokens first).length) := by
  induction first generalizing i with
  | nil => simp
  | cons tree trees ih =>
    rw [List.cons_append, subtree?, subtree?, ih, tokens_cons, List.length_append]
    split
    · next hi => rw [if_pos (by omega)]
    · next hi =>
      have hlt : i - tree.tokens.length < (tokens trees).length ↔
          i < tree.tokens.length + (tokens trees).length := by omega
      rw [Nat.sub_sub]
      simp only [hlt]

theorem Forest.subtree?_leaf {kind : Token.Kind} {trees : Forest}
    (h : subtree? (.leaf kind start stop :: trees) i = some found) :
    (i = 0 ∧ found = .leaf kind start stop) ∨ ∃ k, i = k + 1 ∧ subtree? trees k = some found := by
  rw [subtree?, tokens_leaf, List.length_singleton] at h
  cases i with
  | zero =>
    cases h
    exact .inl ⟨rfl, rfl⟩
  | succ k => exact .inr ⟨k, rfl, h⟩

theorem Grammar.exists_value {part : Part} (h : Grammar part pos text trees)
    (hsubtree : Forest.subtree? trees i = some found) :
    ∃ before inside after, text = before ++ inside ++ after ∧
      Grammar .value (pos + before.length) inside [found] := by
  induction h generalizing i with
  | string pos text hcontents =>
    rcases Forest.subtree?_leaf hsubtree with ⟨-, rfl⟩ | ⟨k, -, hk⟩
    · exact ⟨[], _, [], by simp, .string pos text hcontents⟩
    · contradiction
  | primitive pos text hprimitive =>
    rcases Forest.subtree?_leaf hsubtree with ⟨-, rfl⟩ | ⟨k, -, hk⟩
    · exact ⟨[], _, [], by simp, .primitive pos text hprimitive⟩
    · contradiction
  | empty container pos blank hblank =>
    cases i with
    | zero =>
      cases hsubtree
      exact ⟨[], _, [], by simp, .empty container pos blank hblank⟩
    | succ i => simp [Forest.subtree?] at hsubtree
  | filled container pos text trees htrees ih =>
    cases i with
    | zero =>
      cases hsubtree
      exact ⟨[], _, [], by simp, .filled container pos text trees htrees⟩
    | succ i =>
      have hinside : Forest.subtree? trees i = some found := by
        rw [Forest.subtree?] at hsubtree
        split at hsubtree
        · exact hsubtree
        · contradiction
      obtain ⟨before, inside, after, rfl, hvalue⟩ := ih hinside
      refine ⟨[container.opening] ++ before, inside, after ++ [container.closing], ?_, ?_⟩
      · simp
      · rw [List.length_append, ← Nat.add_assoc]
        exact hvalue
  | element pos before text after trees hbefore hvalue hafter ih =>
    obtain ⟨first, inside, rest, rfl, hinside⟩ := ih hsubtree
    refine ⟨before ++ first, inside, rest ++ after, by simp, ?_⟩
    rw [List.length_append, ← Nat.add_assoc]
    exact hinside
  | member pos before key gap text trees hbefore hkey hgap hvalue ih =>
    rcases Forest.subtree?_leaf hsubtree with ⟨-, rfl⟩ | ⟨k, -, hk⟩
    · exact ⟨before, quoted key, gap ++ [Byte.colon] ++ text, by simp,
        .string (pos + before.length) key hkey⟩
    · obtain ⟨first, inside, rest, rfl, hinside⟩ := ih hk
      refine ⟨before ++ quoted key ++ gap ++ [Byte.colon] ++ first, inside, rest, by simp, ?_⟩
      have hpos : pos + (before ++ quoted key ++ gap ++ [Byte.colon] ++ first).length =
          pos + before.length + key.length + gap.length + 3 + first.length := by
        simp only [quoted, List.length_append, List.length_singleton]
        omega
      rw [hpos]
      exact hinside
  | one container pos text trees hentry ih => exact ih hsubtree
  | more container pos text next trees nextTrees hentries hentry ih ihNext =>
    rw [Forest.subtree?_append] at hsubtree
    split at hsubtree
    · obtain ⟨before, inside, after, rfl, hinside⟩ := ih hsubtree
      exact ⟨before, inside, after ++ [Byte.comma] ++ next, by simp, hinside⟩
    · obtain ⟨before, inside, after, rfl, hinside⟩ := ihNext hsubtree
      refine ⟨text ++ [Byte.comma] ++ before, inside, after, by simp, ?_⟩
      have hpos : pos + (text ++ [Byte.comma] ++ before).length =
          pos + text.length + 1 + before.length := by
        simp only [List.length_append, List.length_singleton]
        omega
      rw [hpos]
      exact hinside

mutual

theorem Tree.height_subtree?_le {tree found : Tree} {i : Nat} (h : tree.subtree? i = some found) :
    found.height ≤ tree.height := by
  cases tree with
  | node token children =>
    cases i with
    | zero =>
      cases h
      exact Nat.le_refl _
    | succ i =>
      rw [Tree.subtree?] at h
      have hchildren := Forest.height_subtree?_le h
      rw [Tree.height_node]
      omega

theorem Forest.height_subtree?_le {trees : Forest} {found : Tree} {i : Nat}
    (h : Forest.subtree? trees i = some found) : found.height ≤ Forest.height trees := by
  cases trees with
  | nil => simp [Forest.subtree?] at h
  | cons tree trees =>
    rw [Forest.subtree?] at h
    rw [Forest.height_cons]
    split at h
    · have htree := Tree.height_subtree?_le h
      omega
    · have htrees := Forest.height_subtree?_le h
      omega

end

end ClearSign.Json
