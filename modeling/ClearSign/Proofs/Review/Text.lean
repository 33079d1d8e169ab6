import ClearSign.Proofs.Outcome
import ClearSign.Json.Scanner
import ClearSign.Proofs.Json.Grammar
import ClearSign.Transaction

/-!
This module contains the text of an item's value, apart from how much room there is for it, and the
proof that this text is what is written if there is room.
-/

namespace ClearSign

open Json (quoted)

def Writer.Writes (writer : Writer Unit) (text : Except Fault Bytes) : Prop :=
  ∀ region : Region,
    (∃ content, text = .ok content ∧ content.length ≤ region.free.length - 1 ∧
      writer.perform region = (.ok (), region.write content)) ∨
    ∃ fault stopped, writer.perform region = (.error fault, stopped) ∧
      ∀ content, text = .ok content → region.free.length ≤ content.length ∧ fault = .textTooLong

namespace Writer

theorem writes_nil : Writes (pure ()) (pure []) := by
  intro region
  refine .inl ⟨[], rfl, Nat.zero_le _, ?_⟩
  simp [Region.write]

theorem writes_put (piece : Bytes) : Writes (put piece) (pure piece) := by
  intro region
  rw [perform_put]
  split
  · next hroom => exact .inl ⟨piece, rfl, Nat.le_sub_one_of_lt hroom, rfl⟩
  · next hroom =>
    refine .inr ⟨_, _, rfl, ?_⟩
    intro content hcontent
    cases hcontent
    exact ⟨Nat.le_of_not_lt hroom, rfl⟩

theorem Writes.append {first second : Writer Unit} {text next : Except Fault Bytes}
    (hfirst : Writes first text) (hsecond : Writes second next) :
    Writes (do first; second) (do return (← text) ++ (← next)) := by
  intro region
  rw [Attempt.perform_bind]
  rcases hfirst region with ⟨content, rfl, hroom, hdone⟩ | ⟨fault, stopped, hstopped, hfull⟩
  · rw [hdone]
    have hlength : (region.write content).free.length = region.free.length - content.length := by
      simp [Region.write]
    rcases hsecond (region.write content) with
      ⟨more, rfl, hroom', hdone'⟩ | ⟨fault, stopped, hstopped, hfull⟩
    · refine .inl ⟨content ++ more, rfl, ?_, ?_⟩
      · rw [List.length_append]
        omega
      · dsimp only
        rw [hdone']
        simp [Region.write]
    · refine .inr ⟨fault, stopped, hstopped, ?_⟩
      intro whole hwhole
      rw [ok_bind, bind_eq_ok] at hwhole
      obtain ⟨more, hmore, hwhole⟩ := hwhole
      cases hwhole
      obtain ⟨hlarge, hfault⟩ := hfull more hmore
      rw [List.length_append]
      exact ⟨by omega, hfault⟩
  · rw [hstopped]
    refine .inr ⟨fault, stopped, rfl, ?_⟩
    intro whole hwhole
    rw [bind_eq_ok] at hwhole
    obtain ⟨content, hcontent, hwhole⟩ := hwhole
    rw [bind_eq_ok] at hwhole
    obtain ⟨more, -, hwhole⟩ := hwhole
    cases hwhole
    obtain ⟨hlarge, hfault⟩ := hfull content hcontent
    rw [List.length_append]
    exact ⟨by omega, hfault⟩

theorem Writes.read {x : Except Fault α} {writer : α → Writer Unit} {text : α → Except Fault Bytes}
    (h : ∀ a, Writes (writer a) (text a)) : Writes (do writer (← x)) (do text (← x)) := by
  intro region
  cases x with
  | ok a => exact h a region
  | error fault =>
    refine .inr ⟨fault, region, rfl, ?_⟩
    intro content hcontent
    contradiction

theorem writes_throw (fault other : Fault) : Writes (throw fault) (.error other) := by
  intro region
  refine .inr ⟨fault, region, rfl, ?_⟩
  intro content hcontent
  contradiction

theorem writes_putQuoted (text : Bytes) : Writes (putQuoted text) (pure (quoted text)) := by
  have hquote : ascii "\"" = [Json.Byte.quote] := by decide
  unfold putQuoted
  have h := (writes_put (ascii "\"")).append ((writes_put text).append (writes_put (ascii "\"")))
  simpa only [quoted, ← hquote, pure_bind, List.append_assoc] using h

end Writer

namespace ReviewData

open Writer

variable {r : ReviewData} {item : Item}

def plainText (r : ReviewData) (item : Item) : Except Fault Bytes := do
  let value ← r.doc.text item.token
  if value.isEmpty then throw .emptyText
  return value

def transferText (r : ReviewData) (item : Item) : Except Fault Bytes := do
  let sender ← r.arg item.token 0
  let receiver ← r.arg item.token 1
  let amount ← r.arg item.token 2
  return amount ++ ascii " from " ++ quoted sender ++ ascii " to " ++ quoted receiver

def crossTransferText (r : ReviewData) (item : Item) : Except Fault Bytes := do
  let transfer ← r.transferText item
  let chain ← r.arg item.token 3
  return ascii "Cross-chain " ++ transfer ++ ascii " to chain " ++ quoted chain

def rotateText (r : ReviewData) (item : Item) : Except Fault Bytes := do
  return quoted (← r.arg item.token 0)

def gasText (r : ReviewData) (item : Item) : Except Fault Bytes := do
  let limit ← r.field item.token (ascii "gasLimit")
  let price ← r.field item.token (ascii "gasPrice")
  return ascii "at most " ++ (← r.doc.text limit) ++ ascii " at price " ++ (← r.doc.text price)

def numberedArgsText (r : ReviewData) : (n : Nat) → (args : List Nat) → Except Fault Bytes
  | _, [] => return []
  | n, arg :: args => do
    let text ← r.doc.text arg
    let rest ← r.numberedArgsText (n + 1) args
    return (if n > 1 then ascii ", " else []) ++ ascii "arg " ++ decimal n ++ ascii ": " ++
      (if r.doc.isString arg then quoted text else text) ++ rest

def argsText (r : ReviewData) (item : Item) : Except Fault Bytes :=
  if item.shown then
    match (r.doc.args? item.token).elim [] r.doc.children with
    | [] => return ascii "no args"
    | args => r.numberedArgsText 1 args
  else return ascii Phrase.argsNotShown

def unknownCapabilityText (r : ReviewData) (item : Item) : Except Fault Bytes := do
  let name ← r.field item.token (ascii "name")
  return ascii "name: " ++ (← r.doc.text name) ++ ascii ", " ++ (← r.argsText item)

def text (r : ReviewData) (item : Item) : Except Fault Bytes :=
  match item.kind with
  | .signing => return ascii "Transaction"
  | .requiring => return ascii "Capabilities"
  | .payingGas => return ascii " "
  | .unrestricted => return ascii Phrase.unrestricted
  | .caution => return ascii Phrase.caution
  | .tooLarge => return ascii Phrase.tooLarge
  | .hash => return r.hash.text.bytes
  | .signForAddress => return r.address
  | .network | .signerKey | .unscopedSigner | .chain => r.plainText item
  | .transfer _ => r.transferText item
  | .crossTransfer _ => r.crossTransferText item
  | .rotate => r.rotateText item
  | .gas => r.gasText item
  | .unknownCapability _ => r.unknownCapabilityText item

theorem writes_plain : Writes (r.plain item) (r.plainText item) := by
  unfold plain plainText
  apply Writes.read
  intro value
  cases value.isEmpty with
  | true => exact writes_throw _ _
  | false => exact writes_put value

theorem writes_transfer (r : ReviewData) (item : Item) :
    Writes (r.transfer item) (r.transferText item) := by
  unfold transfer transferText
  apply Writes.read
  intro sender
  apply Writes.read
  intro receiver
  apply Writes.read
  intro amount
  have h := (writes_put amount).append ((writes_put (ascii " from ")).append
    ((writes_putQuoted sender).append ((writes_put (ascii " to ")).append
      (writes_putQuoted receiver))))
  simpa only [pure_bind, List.append_assoc] using h

theorem writes_crossTransfer : Writes (r.crossTransfer item) (r.crossTransferText item) := by
  unfold crossTransfer crossTransferText
  have hchain : ∀ chain, Writes (do put (ascii " to chain "); putQuoted chain)
      (pure (ascii " to chain " ++ quoted chain)) := by
    intro chain
    exact (writes_put _).append (writes_putQuoted chain)
  have h := (writes_put (ascii "Cross-chain ")).append
    ((writes_transfer r item).append
      (Writes.read (x := r.arg item.token 3) hchain))
  simpa only [pure_bind, bind_assoc, List.append_assoc] using h

theorem writes_rotate : Writes (r.rotate item) (r.rotateText item) := by
  unfold rotate rotateText
  apply Writes.read
  intro account
  exact writes_putQuoted account

theorem writes_gas : Writes (r.gas item) (r.gasText item) := by
  unfold gas gasText
  apply Writes.read
  intro limit
  apply Writes.read
  intro price
  have h := (writes_put (ascii "at most ")).append
    ((Writes.read (x := r.doc.text limit) writes_put).append
      ((writes_put (ascii " at price ")).append (Writes.read (x := r.doc.text price) writes_put)))
  simpa only [pure_bind, bind_pure, bind_assoc, List.append_assoc] using h

theorem numberedArgs_cons (r : ReviewData) (n arg : Nat) (args : List Nat) :
    r.numberedArgs n (arg :: args) = (do
      if n > 1 then put (ascii ", ") else pure ()) >>= fun () => (do
        put (ascii "arg ")
        putNumber n
        put (ascii ": ")) >>= fun () => (do
          let text ← r.doc.text arg
          if r.doc.isString arg then putQuoted text else put text) >>= fun () =>
            r.numberedArgs (n + 1) args := by
  rw [numberedArgs]
  simp only [bind_assoc]
  cases r.doc.isString arg <;> split <;> simp

theorem writes_numberedArgs (n : Nat) (args : List Nat) :
    Writes (r.numberedArgs n args) (r.numberedArgsText n args) := by
  induction args generalizing n with
  | nil => exact writes_nil
  | cons arg args ih =>
    rw [numberedArgs_cons, numberedArgsText]
    have hseparator : Writes (if n > 1 then put (ascii ", ") else pure ())
        (pure (if n > 1 then ascii ", " else [])) := by
      split
      · exact writes_put _
      · exact writes_nil
    have hnumber := (writes_put (ascii "arg ")).append
      ((writes_put (decimal n)).append (writes_put (ascii ": ")))
    have htext : ∀ text, Writes (if r.doc.isString arg then putQuoted text else put text)
        (pure (if r.doc.isString arg then quoted text else text)) := by
      intro text
      split
      · exact writes_putQuoted text
      · exact writes_put text
    have h := hseparator.append
      (hnumber.append ((Writes.read (x := r.doc.text arg) htext).append (ih (n + 1))))
    simpa only [putNumber, pure_bind, bind_assoc, List.append_assoc] using h

theorem writes_args (r : ReviewData) (item : Item) :
    Writes
      (if item.shown then
        match (r.doc.args? item.token).elim [] r.doc.children with
        | [] => put (ascii "no args")
        | args => r.numberedArgs 1 args
      else put (ascii Phrase.argsNotShown))
      (r.argsText item) := by
  unfold argsText
  split
  · split
    · exact writes_put _
    · exact writes_numberedArgs 1 _
  · exact writes_put _

theorem writes_unknownCapability :
    Writes (r.unknownCapability item) (r.unknownCapabilityText item) := by
  unfold unknownCapability unknownCapabilityText
  apply Writes.read
  intro name
  have h := (writes_put (ascii "name: ")).append
    ((Writes.read (x := r.doc.text name) writes_put).append ((writes_put (ascii ", ")).append
      (writes_args r item)))
  simp only [pure_bind, bind_pure, bind_assoc, List.append_assoc] at h ⊢
  exact h

theorem writes_value (r : ReviewData) (item : Item) : Writes (r.value item) (r.text item) := by
  unfold value text
  cases item.kind with
  | network | signerKey | unscopedSigner | chain => exact writes_plain
  | transfer => exact writes_transfer r item
  | crossTransfer => exact writes_crossTransfer
  | rotate => exact writes_rotate
  | gas => exact writes_gas
  | unknownCapability => exact writes_unknownCapability
  | _ => exact writes_put _

theorem render_of_text {content : Bytes} (htext : r.text item = .ok content) (out : Bytes) :
    r.render item out =
      if content.length < out.length then
        .ok (content.length, overwrite out (content ++ [0]))
      else .error .textTooLong := by
  unfold render writeInto
  rcases writes_value r item (.ofMemory out) with
    ⟨_, htext', hroom, hdone⟩ | ⟨fault, stopped, hstopped, hfull⟩
  · cases htext.symm.trans htext'
    rw [hdone]
    dsimp only [Region.ofMemory] at hroom ⊢
    rcases Nat.lt_or_ge content.length out.length with hlonger | hshorter
    · have hlength : 0 < (out.drop content.length).length := by
        rw [List.length_drop]
        exact Nat.sub_pos_of_lt hlonger
      obtain ⟨byte, rest, hrest⟩ := List.exists_cons_of_length_pos hlength
      have htail : out.drop (content.length + 1) = rest := by
        rw [← List.drop_drop, hrest, List.drop_one, List.tail_cons]
      rw [if_pos hlonger]
      simp [terminate, Region.write, overwrite, hrest, htail]
    · have hempty : out = [] := by
        rw [← List.length_eq_zero_iff]
        omega
      subst hempty
      simp [terminate, Region.write]
  · obtain ⟨hlarge, rfl⟩ := hfull content htext
    dsimp only [Region.ofMemory] at hlarge
    rw [hstopped, if_neg (Nat.not_lt.2 hlarge)]

theorem exists_render_error (htext : r.text item = .error fault) (out : Bytes) :
    ∃ fault, r.render item out = .error fault := by
  unfold render writeInto
  rcases writes_value r item (.ofMemory out) with
    ⟨content, hcontent, -⟩ | ⟨fault', stopped, hstopped, -⟩
  · rw [htext] at hcontent
    contradiction
  · rw [hstopped]
    exact ⟨fault', rfl⟩

theorem render_eq_ok_iff {r : ReviewData} {out : Bytes} :
    r.render item out = .ok (n, found) ↔
      ∃ content, r.text item = .ok content ∧ content.length < out.length ∧ n = content.length ∧
        found = overwrite out (content ++ [0]) := by
  cases htext : r.text item with
  | error fault =>
    obtain ⟨fault', hrender⟩ := exists_render_error htext out
    simp [hrender]
  | ok content =>
    rw [render_of_text htext out]
    split
    · next hroom => simp [hroom, eq_comm]
    · next hroom => simp [hroom]

end ReviewData

namespace Transaction

def Shows (tx : Transaction) (source : Bytes) (item : Item) (text : Bytes) : Prop :=
  ∃ out, tx.renderItem source item = .ok (text.length, out) ∧ out.take text.length = text

theorem renderItem_eq_ok_iff {tx : Transaction} :
    tx.renderItem source item = .ok (n, out) ↔
      ∃ content, (tx.renderer source).text item = .ok content ∧ content.length < Limit.value ∧
        n = content.length ∧
        out = overwrite (List.replicate Limit.value 0) (content ++ [0]) := by
  unfold renderItem
  rw [ReviewData.render_eq_ok_iff, List.length_replicate]

theorem take_overwrite (memory content : Bytes) :
    (overwrite memory (content ++ [0])).take content.length = content := by
  simp [overwrite]

theorem shows_iff {tx : Transaction} :
    tx.Shows source item text ↔
      (tx.renderer source).text item = .ok text ∧ text.length < Limit.value := by
  unfold Shows
  constructor
  · rintro ⟨out, hrender, hout⟩
    obtain ⟨content, hcontent, hroom, hlength, rfl⟩ := renderItem_eq_ok_iff.1 hrender
    rw [hlength, take_overwrite] at hout
    rw [← hout]
    exact ⟨hcontent, hroom⟩
  · rintro ⟨htext, hroom⟩
    exact ⟨_, renderItem_eq_ok_iff.2 ⟨text, htext, hroom, rfl, rfl⟩, take_overwrite _ _⟩

theorem validate_eq_ok_iff {tx : Transaction} :
    tx.validate source = .ok () ↔
      ∀ item ∈ tx.items.items, item.kind.title.length < Limit.title ∧
        ∃ text, tx.Shows source item text := by
  unfold validate
  rw [forM_eq_ok_iff]
  apply forall₂_congr
  intro item _
  rw [Item.Kind.writeTitle, List.length_replicate]
  split
  · next htitle =>
    rw [ok_bind, bind_eq_ok]
    constructor
    · rintro ⟨⟨n, out⟩, hrender, -⟩
      obtain ⟨text, htext, hroom, -⟩ := renderItem_eq_ok_iff.1 hrender
      exact ⟨htitle, text, shows_iff.2 ⟨htext, hroom⟩⟩
    · rintro ⟨-, text, out, hrender, -⟩
      exact ⟨_, hrender, rfl⟩
  · next htitle =>
    constructor
    · intro h
      contradiction
    · rintro ⟨htitle', -⟩
      exact absurd htitle' htitle

end Transaction

end ClearSign
