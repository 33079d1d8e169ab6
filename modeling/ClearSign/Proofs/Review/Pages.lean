import ClearSign.Proofs.Json.Recognition
import ClearSign.Proofs.Review.Text
import ClearSign.Proofs.Session.Command
import Mathlib.Data.List.TakeWhile

/-!
This module contains what a reader of terminated text gets to see of a value that is cut into pages.
-/

namespace ClearSign

theorem terminated_append_nul (text rest : Bytes) :
    terminated (text ++ 0 :: rest) = terminated text := by
  unfold terminated
  induction text with
  | nil => rfl
  | cons c text ih =>
    rw [List.cons_append, List.takeWhile_cons, List.takeWhile_cons, ih]

theorem terminated_eq_self_iff (text : Bytes) : terminated text = text ↔ 0 ∉ text := by
  unfold terminated
  rw [List.takeWhile_eq_self_iff]
  constructor
  · intro h hmem
    exact absurd rfl (bne_iff_ne.1 (h 0 hmem))
  · intro h c hc
    rw [bne_iff_ne]
    rintro rfl
    exact h hc

theorem length_terminated_le (text : Bytes) : (terminated text).length ≤ text.length :=
  (List.takeWhile_prefix _).length_le

theorem flatten_terminated_eq_iff (texts : List Bytes) :
    (texts.map terminated).flatten = texts.flatten ↔ 0 ∉ texts.flatten := by
  have hle : ∀ texts : List Bytes,
      (texts.map terminated).flatten.length ≤ texts.flatten.length := by
    intro texts
    induction texts with
    | nil => exact Nat.le_refl 0
    | cons text texts ih =>
      have := length_terminated_le text
      simp only [List.map_cons, List.flatten_cons, List.length_append]
      omega
  induction texts with
  | nil => simp
  | cons text texts ih =>
    rw [List.map_cons, List.flatten_cons, List.flatten_cons, List.mem_append, not_or]
    constructor
    · intro h
      -- no part is longer than what it is cut from, so none of them is cut
      have hlength := congrArg List.length h
      rw [List.length_append, List.length_append] at hlength
      have := hle texts
      have := length_terminated_le text
      obtain ⟨htext, hrest⟩ := List.append_inj h (by omega)
      exact ⟨(terminated_eq_self_iff text).1 htext, ih.1 hrest⟩
    · rintro ⟨htext, hrest⟩
      rw [(terminated_eq_self_iff text).2 htext, ih.2 hrest]

namespace Page

def chunk (value out : Bytes) (page : Nat) : Bytes :=
  (value.drop (page * width out)).take (width out)

theorem write_eq_ok (h : write value out page = .ok (pages, message)) :
    0 < width out ∧ pages = count value out ∧
      message = overwrite out (chunk value out page ++ [0]) := by
  unfold write at h
  split at h
  · contradiction
  · next hlength =>
    split at h
    · contradiction
    · split at h
      · contradiction
      · cases h
        refine ⟨?_, rfl, rfl⟩
        have : 0 < Limit.pageWidth := by decide
        unfold width
        omega

theorem write_of_lt {value out : Bytes} (hwidth : 0 < width out) (hcount : count value out ≤ 255)
    (hpage : page < count value out) :
    write value out page = .ok (count value out, overwrite out (chunk value out page ++ [0])) := by
  have hlength : ¬out.length < 2 := by
    unfold width at hwidth
    omega
  rw [write, if_neg hlength, if_neg (by omega), if_neg (by omega)]
  rfl

theorem write_of_le {value out : Bytes} (hwidth : 0 < width out) (hcount : count value out ≤ 255)
    (hpage : count value out ≤ page) : write value out page = .error .pageOutOfRange := by
  have hlength : ¬out.length < 2 := by
    unfold width at hwidth
    omega
  rw [write, if_neg hlength, if_neg (by omega), if_pos hpage]

theorem count_pos (value out : Bytes) : 0 < count value out :=
  Nat.le_max_left _ _

theorem count_le {value out : Bytes} (hw : 0 < w) (hwidth : w ≤ width out) (hn : 0 < n)
    (hvalue : value.length ≤ n * w) : count value out ≤ n := by
  unfold count
  apply Nat.max_le.2
  refine ⟨hn, ?_⟩
  have hmul : n * w ≤ n * width out := Nat.mul_le_mul_left n hwidth
  have hlt : value.length + width out - 1 < (n + 1) * width out := by
    rw [Nat.succ_mul]
    omega
  exact Nat.le_of_lt_succ ((Nat.div_lt_iff_lt_mul (by omega)).2 hlt)

theorem terminated_overwrite (out text : Bytes) :
    terminated (overwrite out (text ++ [0])) = terminated text := by
  rw [overwrite, List.append_assoc]
  exact terminated_append_nul text _

theorem flatten_chunks (value out : Bytes) (n : Nat) :
    ((List.range n).map (chunk value out)).flatten = value.take (n * width out) := by
  induction n with
  | zero => simp
  | succ n ih =>
    rw [List.range_succ, List.map_append, List.flatten_append, ih, Nat.succ_mul, List.take_add]
    simp [chunk]

theorem flatten_all_chunks {value out : Bytes} (hwidth : 0 < width out) :
    ((List.range (count value out)).map (chunk value out)).flatten = value := by
  rw [flatten_chunks, List.take_of_length_le]
  have hceil := Nat.div_add_mod (value.length + width out - 1) (width out)
  have hmod := Nat.mod_lt (value.length + width out - 1) hwidth
  unfold count
  have hmax : (value.length + width out - 1) / width out * width out ≤
      max 1 ((value.length + width out - 1) / width out) * width out :=
    Nat.mul_le_mul_right _ (Nat.le_max_right _ _)
  rw [Nat.mul_comm] at hceil
  omega

end Page

theorem mapM_eq_ok {f : α → Except ε β} {g : α → β} (hf : ∀ a b, f a = .ok b → b = g a)
    {as : List α} {bs : List β} (h : as.mapM f = .ok bs) : bs = as.map g := by
  induction as generalizing bs with
  | nil =>
    cases h
    rfl
  | cons a as ih =>
    rw [List.mapM_cons, bind_eq_ok] at h
    obtain ⟨b, hb, h⟩ := h
    rw [bind_eq_ok] at h
    obtain ⟨bs', hbs, h⟩ := h
    cases h
    rw [List.map_cons, hf a b hb, ih hbs]

namespace Transaction

theorem screen_eq_ok {tx : Transaction} {screen : Screen}
    (h : tx.screen source index page title message = .ok screen) :
    ∃ item value, tx.items.items[index]? = some item ∧ tx.Shows source item value ∧
      0 < Page.width message ∧ screen.pages = Page.count value message ∧
      terminated screen.message = terminated (Page.chunk value message page) := by
  unfold Transaction.screen at h
  split at h
  · contradiction
  · next item hitem =>
    rw [bind_eq_ok] at h
    obtain ⟨⟨length, title'⟩, -, h⟩ := h
    dsimp only at h
    rw [bind_eq_ok] at h
    obtain ⟨⟨length', out⟩, hrender, h⟩ := h
    dsimp only at h
    rw [bind_eq_ok] at h
    obtain ⟨⟨pages, message'⟩, hpage, h⟩ := h
    cases h
    obtain ⟨value, htext, hroom, rfl, rfl⟩ := renderItem_eq_ok_iff.1 hrender
    rw [take_overwrite] at hpage
    obtain ⟨hwidth, hpages, hmessage⟩ := Page.write_eq_ok hpage
    refine ⟨item, value, hitem, shows_iff.2 ⟨htext, hroom⟩, hwidth, hpages, ?_⟩
    dsimp only
    rw [hmessage, Page.terminated_overwrite]

theorem shows_unique {tx : Transaction} (h : tx.Shows source item text)
    (h' : tx.Shows source item text') : text = text' := by
  rw [shows_iff] at h h'
  have heq := h.1.symm.trans h'.1
  cases heq
  rfl

end Transaction

namespace Session

section

variable {session : Session} (hprompt : session.prompt = .sign)

include hprompt

theorem screen_eq_ok (h : session.screen index page title message = .ok shown) :
    session.transaction.screen session.source index page title message = .ok shown := by
  unfold screen at h
  rw [hprompt] at h
  dsimp only at h
  cases hfound : session.transaction.screen session.source index page title message with
  | ok found =>
    rw [hfound] at h
    cases h
    rfl
  | error fault =>
    rw [hfound] at h
    contradiction

theorem readPages_eq_ok (hitem : session.transaction.items.items[index]? = some item)
    (hshows : session.transaction.Shows session.source item value)
    (h : session.readPages index title message pages = .ok text) :
    text = (pages.map fun page => terminated (Page.chunk value message page)).flatten := by
  unfold readPages at h
  rw [bind_eq_ok] at h
  obtain ⟨texts, htexts, h⟩ := h
  cases h
  apply congrArg
  apply mapM_eq_ok ?_ htexts
  intro page text hpage
  rw [bind_eq_ok] at hpage
  obtain ⟨screen, hscreen, heq⟩ := hpage
  cases heq
  obtain ⟨item', value', hitem', hshows', -, -, htext⟩ :=
    Transaction.screen_eq_ok (screen_eq_ok hprompt hscreen)
  cases hitem.symm.trans hitem'
  rw [htext, Transaction.shows_unique hshows hshows']

theorem readItem_eq_ok (h : session.readItem index title message = .ok shown) :
    ∃ item value, session.transaction.items.items[index]? = some item ∧
      session.transaction.Shows session.source item value ∧
      (shown.value = value ↔ 0 ∉ value) := by
  unfold readItem at h
  rw [bind_eq_ok] at h
  obtain ⟨first, hfirst, h⟩ := h
  rw [bind_eq_ok] at h
  obtain ⟨text, hpages, h⟩ := h
  cases h
  obtain ⟨item, value, hitem, hshows, hwidth, hcount, -⟩ :=
    Transaction.screen_eq_ok (screen_eq_ok hprompt hfirst)
  refine ⟨item, value, hitem, hshows, ?_⟩
  have hall : ((List.range (Page.count value message)).map (Page.chunk value message)).flatten =
      value := Page.flatten_all_chunks hwidth
  have hcut := flatten_terminated_eq_iff ((List.range first.pages).map (Page.chunk value message))
  rw [hcount, hall, List.map_map] at hcut
  dsimp only
  rw [readPages_eq_ok hprompt hitem hshows hpages, hcount]
  exact hcut

end

end Session

end ClearSign
