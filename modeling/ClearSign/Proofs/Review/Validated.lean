import ClearSign.Proofs.Review.Pages
import ClearSign.Proofs.Session.Faithful

/-!
This module contains the proof that nothing can fail once a review is validated: every page of every
item is shown, whatever the size of the screen, and joined the pages are what was rendered.
-/

namespace ClearSign

structure Paged (screen : (page : Nat) → Except ε Screen) (noPage : ε)
    (label value title message : Bytes) : Prop where
  count_pos : 1 ≤ Page.count value message
  count_le : Page.count value message ≤ 171
  page : ∀ page < Page.count value message,
    screen page = .ok
      { pages := Page.count value message
        title := overwrite title (label ++ [0])
        message := overwrite message (Page.chunk value message page ++ [0]) }
  whole : ((List.range (Page.count value message)).map (Page.chunk value message)).flatten = value
  behind : ∀ page ≥ Page.count value message, screen page = .error noPage

theorem Paged.mapError {screen : (page : Nat) → Except ε Screen}
    (h : Paged screen noPage label value title message) (f : ε → δ) :
    Paged (fun page => (screen page).mapError f) (f noPage) label value title message where
  count_pos := h.count_pos
  count_le := h.count_le
  page := by
    intro page hpage
    rw [h.page page hpage]
    rfl
  whole := h.whole
  behind := by
    intro page hpage
    rw [h.behind page hpage]
    rfl

theorem Item.Kind.writeTitle_of_lt {kind : Item.Kind} {out : Bytes}
    (h : kind.title.length < out.length) :
    kind.writeTitle out = .ok (kind.title.length, overwrite out (kind.title ++ [0])) := by
  rw [writeTitle, if_pos h]

namespace Transaction

structure Displays (tx : Transaction) (source : Bytes)
    (screen : (index page : Nat) → (title message : Bytes) → Except ε Screen)
    (noItem noPage : ε) : Prop where
  item : ∀ index item, tx.items.items[index]? = some item →
    ∃ value, tx.Shows source item value ∧
      ∀ title message : Bytes, 24 ≤ title.length → 4 ≤ message.length →
        Paged (fun page => screen index page title message) noPage item.kind.title value title
          message
  behind : ∀ index ≥ tx.items.items.length, ∀ page title message,
    screen index page title message = .error noItem

theorem Displays.mapError {tx : Transaction}
    {screen : (index page : Nat) → (title message : Bytes) → Except ε Screen}
    (h : tx.Displays source screen noItem noPage) (f : ε → δ) :
    tx.Displays source
      (fun index page title message => (screen index page title message).mapError f)
      (f noItem) (f noPage) where
  item := by
    intro index item hitem
    obtain ⟨value, hshows, hpaged⟩ := h.item index item hitem
    refine ⟨value, hshows, ?_⟩
    intro title message htitle hmessage
    apply Paged.mapError
    apply hpaged title message htitle hmessage
  behind := by
    intro index hindex page title message
    rw [h.behind index hindex page title message]
    rfl

theorem screen_eq_write {tx : Transaction} {title : Bytes}
    (hitem : tx.items.items[index]? = some item) (hshows : tx.Shows source item value)
    (htitle : item.kind.title.length < title.length) (page : Nat) (message : Bytes) :
    tx.screen source index page title message = do
      let (pages, message) ← Page.write value message page
      return { pages, title := overwrite title (item.kind.title ++ [0]), message } := by
  obtain ⟨htext, hroom⟩ := shows_iff.1 hshows
  have hrender := renderItem_eq_ok_iff.2 ⟨value, htext, hroom, rfl, rfl⟩
  rw [screen, hitem]
  dsimp only
  rw [Item.Kind.writeTitle_of_lt htitle, ok_bind, hrender, ok_bind]
  dsimp only
  rw [take_overwrite]

theorem paged_of_shows {tx : Transaction} {title message : Bytes}
    (hitem : tx.items.items[index]? = some item) (hshows : tx.Shows source item value)
    (hlabel : item.kind.title.length < Limit.title) (htitle : 24 ≤ title.length)
    (hmessage : 4 ≤ message.length) :
    Paged (fun page => tx.screen source index page title message) .pageOutOfRange item.kind.title
      value title message := by
  have hwidth : 3 ≤ Page.width message := by
    unfold Page.width
    apply Nat.le_min.2
    exact ⟨by omega, by decide⟩
  -- the value and its terminator have their place in the scratch space of the renderer
  have hvalue : value.length < 512 := (shows_iff.1 hshows).2
  have hcount : Page.count value message ≤ 171 := by
    apply Page.count_le (w := 3)
    all_goals omega
  have hscreen := screen_eq_write hitem hshows (Nat.lt_of_lt_of_le hlabel htitle)
  constructor
  · apply Page.count_pos
  · exact hcount
  · intro page hpage
    rw [hscreen, Page.write_of_lt (by omega) (by omega) hpage]
    rfl
  · apply Page.flatten_all_chunks
    omega
  · intro page hpage
    rw [hscreen, Page.write_of_le (by omega) (by omega) hpage]
    rfl

theorem displays_of_validate {tx : Transaction} (h : tx.validate source = .ok ()) :
    tx.Displays source (tx.screen source) .itemOutOfRange .pageOutOfRange where
  item := by
    intro index item hitem
    obtain ⟨hlabel, value, hshows⟩ := validate_eq_ok_iff.1 h item (List.mem_of_getElem? hitem)
    refine ⟨value, hshows, ?_⟩
    intro title message htitle hmessage
    apply paged_of_shows hitem hshows hlabel htitle hmessage
  behind := by
    intro index hindex page title message
    rw [screen, List.getElem?_eq_none hindex]

end Transaction

namespace Session

theorem screen_of_sign {session : Session} (h : session.prompt = .sign) :
    session.screen = fun index page title message =>
      (session.transaction.screen session.source index page title message).mapError
        ScreenError.ofFault := by
  funext index page title message
  rw [screen, h]

theorem validated_reviews_are_displayed (device : Device) (keys : Keystore) :
    (∀ (tx : Transaction) (source : Bytes), tx.validate source = .ok () →
      tx.Displays source (tx.screen source) .itemOutOfRange .pageOutOfRange) ∧
    (∀ events : List Event,
      let session := ((fresh device).run device keys events).1
      session.prompt = .sign →
        session.transaction.validate session.source = .ok () ∧
          session.itemCount? = some session.transaction.items.items.length ∧
          session.transaction.Displays session.source session.screen .noData .noData) := by
  constructor
  · intro tx source hvalid
    apply Transaction.displays_of_validate hvalid
  · intro events session hsign
    have hguarded : session.Guarded device keys :=
      guarded_run (guarded_of_idle (by simp [fresh])) events
    obtain ⟨path, key, hfaithful⟩ := hguarded hsign
    refine ⟨hfaithful.valid, ?_, ?_⟩
    · rw [itemCount?, hsign]
    · rw [screen_of_sign hsign]
      apply (Transaction.displays_of_validate hfaithful.valid).mapError

theorem validated_reviews_are_displayed_digest :
    let keys : Keystore := ⟨fun _ => some (.zero 32), fun _ _ => none⟩
    let path : Bytes := [0x2C, 0, 0, 0x80, 0x72, 0x02, 0, 0x80] ++ List.replicate 12 0
    let send (phase : Phase) (payload : Bytes) : Event :=
      .command (payload.length + 5) ⟨Upload.packet 0x23 phase payload, 0, 0⟩
    let events := [.setExpert true, send .init path, send .last (List.replicate 32 1)]
    let session := ((fresh .standard).run .standard keys events).1
    let tx := session.transaction
    tx.items.items.length = 2 ∧
      tx.Displays session.source (tx.screen session.source) .itemOutOfRange .pageOutOfRange ∧
      tx.Displays session.source session.screen .noData .noData := by
  intro keys path send events session tx
  have hvalid : tx.validate session.source = .ok () := by decide +kernel
  have hsign : session.prompt = .sign := by decide +kernel
  obtain ⟨hdisplays, hreviews⟩ := validated_reviews_are_displayed .standard keys
  refine ⟨by decide +kernel, ?_, ?_⟩
  · apply hdisplays tx session.source hvalid
  · apply (hreviews events hsign).2.2

end Session

end ClearSign
