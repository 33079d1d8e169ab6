import ClearSign.Proofs.Json.Enclosure
import ClearSign.Proofs.Json.Nesting

/-!
This module contains how the parts of the scanner's state hang together between two tokens: how deep
it is, what it expects, whether it is done, and which tokens are marked as open.
-/

namespace ClearSign.Json

theorem Reads.container_of_firstValue {container : Option Container} {text : Bytes}
    (h : Reads container text .firstValue depth tokens) : container = some .array := by
  have hprogress : ∀ {pos inner trees}, Progress container .firstValue pos inner trees →
      container = some .array := by
    intro pos inner trees hprogress
    generalize hexpect : Expect.firstValue = expect at hprogress
    cases hprogress with
    | first container => cases container <;> simp [Container.first] at hexpect ⊢
    | next container => cases container <;> simp [Container.next] at hexpect
    | start | done | entries | key | colon => contradiction
  cases h with
  | outermost _ _ _ h => exact hprogress h
  | inside _ _ _ _ _ _ _ _ _ _ _ h => exact hprogress h

theorem Reads.depth_ne_zero {container : Container} {text : Bytes}
    (h : Reads (some container) text expect depth tokens) : depth ≠ 0 := by
  cases h with
  | inside => exact Nat.succ_ne_zero _

namespace Scanner

structure Steady (s : Scanner) : Prop where
  rootDone_iff : s.rootDone ↔ s.depth = 0 ∧ s.expect = .separator
  depth_le : s.depth ≤ Limit.depth

theorem steady_start : Steady {} := ⟨by simp, Nat.zero_le _⟩

theorem steady_of_separator {s : Scanner} (hdepth : s.depth ≤ Limit.depth)
    (hexpect : s.expect = .separator) (hroot : s.rootDone = (s.depth == 0)) : s.Steady := by
  refine ⟨?_, hdepth⟩
  rw [hroot, hexpect]
  simp

theorem steady_of_undone {s : Scanner} (hdepth : s.depth ≤ Limit.depth) (hroot : s.rootDone = false)
    (h : s.depth ≠ 0 ∨ s.expect ≠ .separator) : s.Steady := by
  refine ⟨?_, hdepth⟩
  rw [hroot]
  simp only [Bool.false_eq_true, false_iff, not_and]
  intro hzero
  exact h.resolve_left (not_not_intro hzero)

theorem Steady.rootDone_eq_false {s : Scanner} (h : s.Steady) (hexpect : s.expect ≠ .separator) :
    s.rootDone = false := by
  rw [Bool.eq_false_iff, ne_eq, h.rootDone_iff, not_and]
  exact fun _ => hexpect

theorem Steady.congr {s t : Scanner} (h : s.Steady) (hexpect : t.expect = s.expect)
    (hdepth : t.depth = s.depth) (hroot : t.rootDone = s.rootDone) : t.Steady := by
  refine ⟨?_, ?_⟩
  · rw [hroot, hdepth, hexpect]
    exact h.rootDone_iff
  · rw [hdepth]
    exact h.depth_le

theorem rootDone_of_between {s t : Scanner} (h : s.between c = .ok t)
    (hc : Byte.isBlank c = false) : s.rootDone = false := by
  rw [Bool.eq_false_iff]
  intro hroot
  rw [between, if_neg (by simp [hc]), if_pos hroot] at h
  contradiction

theorem steady_of_openContainer {s t : Scanner} (h : s.Steady)
    (container : Container) (ht : s.openContainer container.kind container.first = .ok t) :
    t.Steady := by
  unfold openContainer at ht
  split at ht
  · contradiction
  next hvalue =>
  split at ht
  · contradiction
  next hdepth =>
  obtain ⟨u, hu, hreturn⟩ := bind_eq_ok.1 ht
  obtain ⟨-, rfl⟩ := push_eq_ok.1 hu
  cases hreturn
  apply steady_of_undone
  · exact Nat.le_of_not_gt hdepth
  · apply h.rootDone_eq_false
    intro hexpect
    simp [expectsValue, hexpect] at hvalue
  · exact .inl (Nat.succ_ne_zero _)

theorem steady_of_closeContainer {s t : Scanner} (h : s.Steady)
    (ht : s.closeContainer kind first = .ok t) : t.Steady := by
  unfold closeContainer at ht
  split at ht
  · contradiction
  split at ht
  · contradiction
  split at ht
  · contradiction
  cases ht
  exact steady_of_separator (Nat.le_trans (Nat.sub_le _ _) h.depth_le) rfl rfl

theorem steady_of_separate {s t : Scanner} (h : s.Steady) (hroot : s.rootDone = false)
    (ht : s.separate = .ok t) : t.Steady := by
  unfold separate at ht
  split at ht
  · contradiction
  split at ht
  · contradiction
  cases ht
  refine steady_of_undone h.depth_le hroot (.inr ?_)
  dsimp only
  split
  · nofun
  · nofun

theorem steady_of_between {s t : Scanner} (h : s.Steady) (ht : s.between c = .ok t) : t.Steady := by
  cases between_of_ok ht with
  | blank => exact h
  | opening container t hopen => exact steady_of_openContainer h container hopen
  | closing container t hclose => exact steady_of_closeContainer h hclose
  | quote => exact h.congr rfl rfl rfl
  | colon hexpect =>
    refine steady_of_undone h.depth_le (h.rootDone_eq_false ?_) (.inr nofun)
    rw [hexpect]
    nofun
  | comma t hseparate => exact steady_of_separate h (rootDone_of_between ht (by decide)) hseparate
  | primitive => exact h.congr rfl rfl rfl

theorem steady_of_closePrimitive {s t : Scanner} (h : s.Steady)
    (ht : s.closePrimitive start = .ok t) : t.Steady := by
  obtain ⟨u, hu, hreturn⟩ := bind_eq_ok.1 ht
  obtain ⟨-, rfl⟩ := push_eq_ok.1 hu
  cases hreturn
  exact steady_of_separator h.depth_le rfl rfl

theorem steady_of_closeString {s t : Scanner} {text : Bytes} (h : s.Steady) (htracked : s.Tracked text)
    (ht : s.closeString start = .ok t) : t.Steady := by
  obtain ⟨next, hnext, rfl⟩ := closeString_eq_ok ht
  rcases hnext with ⟨hvalue, rfl⟩ | ⟨hkey, rfl⟩
  · exact steady_of_separator h.depth_le rfl rfl
  · -- a key is a string in an object, so that the scanner is not done behind it
    obtain ⟨-, container, before, part, -, hreads, -⟩ := htracked
    rw [expectsKey_iff] at hkey
    have hobject : container = some .object := by
      apply hreads.container_of_expectsKey
      rcases hkey with hkey | hkey <;> simp [hkey]
    subst hobject
    have hdepth := hreads.depth_ne_zero
    exact steady_of_undone h.depth_le (by simpa using hdepth) (.inl hdepth)

theorem steady_of_step {s t : Scanner} {text : Bytes} (h : s.Steady) (htracked : s.Tracked text)
    (ht : s.step c = .ok t) : t.Steady := by
  obtain ⟨u, hu, hreturn⟩ := bind_eq_ok.1 ht
  cases hreturn
  suffices hsteady : u.Steady from hsteady.congr rfl rfl rfl
  cases hmode : s.mode with
  | between =>
    simp only [take, hmode] at hu
    exact steady_of_between h hu
  | string start =>
    simp only [take, hmode] at hu
    split at hu
    · exact steady_of_closeString h htracked hu
    · split at hu
      all_goals
        cases hu
        exact h.congr rfl rfl rfl
  | escape start =>
    simp only [take, hmode] at hu
    split at hu
    · cases hu
      exact h.congr rfl rfl rfl
    · split at hu
      · cases hu
        exact h.congr rfl rfl rfl
      · contradiction
  | codePoint start left =>
    simp only [take, hmode] at hu
    split at hu
    · split at hu
      all_goals
        cases hu
        exact h.congr rfl rfl rfl
    · contradiction
  | primitive start =>
    simp only [take, hmode] at hu
    split at hu
    · obtain ⟨v, hv, hbetween⟩ := bind_eq_ok.1 hu
      exact steady_of_between (steady_of_closePrimitive h hv) hbetween
    · split at hu
      · cases hu
        exact h
      · contradiction

theorem steady_of_foldlM {s t : Scanner} {text more : Bytes} (h : s.Steady) (htracked : s.Tracked text)
    (hlength : text.length + more.length < Limit.jsonLength) (ht : more.foldlM step s = .ok t) :
    t.Steady := by
  induction more generalizing s text with
  | nil =>
    cases ht
    exact h
  | cons c more ih =>
    rw [List.foldlM_cons] at ht
    obtain ⟨u, hu, hrest⟩ := bind_eq_ok.1 ht
    rw [List.length_cons] at hlength
    apply ih (steady_of_step h htracked hu) (tracked_of_step htracked (by omega) hu) _ hrest
    rw [List.length_append, List.length_singleton]
    omega

structure Consistent (s : Scanner) (text : Bytes) : Prop where
  marked : s.tokens.filter Token.isOpen = (unclosed text).map Unclosed.token
  closed : ∀ token ∈ s.tokens, token ∉ (unclosed text).map Unclosed.token →
    token.last ≠ Token.openMark
  depth_eq : s.depth = s.tokens.countP Token.isOpen
  depth_le : s.depth ≤ Limit.depth
  innermost : s.innermost? = (unclosed text).head?.map Unclosed.token
  key : s.expect = .firstKey ∨ s.expect = .key ∨ s.expect = .colon →
    (unclosed text).head?.map Unclosed.container = some .object
  firstValue : s.expect = .firstValue →
    (unclosed text).head?.map Unclosed.container = some .array
  rootDone : s.rootDone ↔ s.depth = 0 ∧ s.expect = .separator

theorem Settled.consistent {s : Scanner} (h : s.Settled text) (hsteady : s.Steady)
    (hlength : text.length < Limit.jsonLength) : s.Consistent text := by
  obtain ⟨-, -, container, hreads⟩ := h
  obtain ⟨-, -, hdepth, hcontainer⟩ := hreads.run_brackets
  have hmarked := hreads.filter_isOpen hlength
  refine ⟨hmarked, ?_, ?_, hsteady.depth_le, ?_, ?_, ?_, hsteady.rootDone_iff⟩
  · intro token htoken hclosed hlast
    rw [← hmarked, List.mem_filter, not_and] at hclosed
    exact hclosed htoken (beq_iff_eq.2 hlast)
  · rw [List.countP_eq_length_filter, hmarked, List.length_map, hdepth]
  · rw [innermost?, ← List.head?_filter, hmarked, List.head?_map]
  · intro hexpect
    rw [hcontainer]
    exact hreads.container_of_expectsKey hexpect
  · intro hexpect
    rw [hexpect] at hreads
    rw [hcontainer]
    exact hreads.container_of_firstValue

theorem Settled.exists_innermost {s : Scanner} (h : s.Settled text) (hsteady : s.Steady)
    (hlength : text.length < Limit.jsonLength) (hroot : s.rootDone = false)
    (hexpect : s.expect ≠ .value) : s.depth ≠ 0 ∧ ∃ token, s.innermost? = some token := by
  obtain ⟨-, -, container, hreads⟩ := h
  have hfind := hreads.find?_isOpen hlength
  cases container with
  | some container =>
    rw [Option.map_some, Option.map_eq_some_iff] at hfind
    obtain ⟨token, htoken, -⟩ := hfind
    exact ⟨hreads.depth_ne_zero, token, htoken⟩
  | none =>
    rcases s with ⟨pos, mode, expect, depth, rootDone, tokens⟩
    cases hreads with
    | outermost _ _ _ hprogress =>
      cases hprogress with
      | start => exact absurd rfl hexpect
      | done =>
        have hdone := hsteady.rootDone_iff.2 ⟨rfl, rfl⟩
        rw [hroot] at hdone
        contradiction

theorem settled_of_read {s : Scanner} {text : Bytes} (hlength : text.length < Limit.jsonLength)
    (h : read {} text = .ok s) (hmode : s.mode = .between) : s.Settled text ∧ s.Steady := by
  obtain ⟨u, hu, hsettle⟩ := bind_eq_ok.1 h
  have htracked := tracked_of_foldlM tracked_start (by simpa using hlength) hu
  have hsteady := steady_of_foldlM steady_start tracked_start (by simpa using hlength) hu
  rw [List.nil_append] at htracked
  unfold settle at hsettle
  split at hsettle
  · next hprimitive =>
    exact ⟨settled_of_closePrimitive htracked hprimitive hsettle,
      steady_of_closePrimitive hsteady hsettle⟩
  all_goals
    cases hsettle
    exact ⟨htracked.settled hmode, hsteady⟩

end Scanner

end ClearSign.Json
