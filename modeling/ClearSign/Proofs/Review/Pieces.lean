import Mathlib.Data.List.Induction
import ClearSign.Review.Writer

/-!
This module contains what any calls to a writer come down to: pieces that are offered to it one after
another, each of which is taken as a whole or not at all. It also contains which text a number is
offered as.
-/

namespace ClearSign

def digitsValue (text : Bytes) : Nat :=
  text.foldl (fun value c => 10 * value + (c.toNat - 48)) 0

structure Denotes (text : Bytes) (n : Nat) : Prop where
  ne_nil : text ≠ []
  digits : ∀ c ∈ text, 48 ≤ c.toNat ∧ c.toNat ≤ 57
  value : digitsValue text = n

structure Shortest (text : Bytes) (n : Nat) : Prop where
  denotes : Denotes text n
  length_lt : ∀ other, Denotes other n → other ≠ text → text.length < other.length

theorem digitsValue_append_singleton (text : Bytes) (c : UInt8) :
    digitsValue (text ++ [c]) = 10 * digitsValue text + (c.toNat - 48) := by
  simp [digitsValue]

theorem decimal_of_lt (h : n < 10) : decimal n = [UInt8.ofNat (48 + n)] := by
  rw [decimal, Nat.toDigits_of_lt_base h, List.map_singleton, Nat.toNat_digitChar_of_lt_ten h]

theorem decimal_of_le (h : 10 ≤ n) :
    decimal n = decimal (n / 10) ++ [UInt8.ofNat (48 + n % 10)] := by
  have hdigit : n % 10 < 10 := Nat.mod_lt n (by decide)
  rw [decimal, Nat.toDigits_of_base_le (by decide) h, List.map_append, List.map_singleton,
    Nat.toNat_digitChar_of_lt_ten hdigit]
  rfl

theorem decimal_ne_nil (n : Nat) : decimal n ≠ [] := by
  rw [decimal, ne_eq, List.map_eq_nil_iff]
  exact Nat.toDigits_ne_nil

theorem length_decimal_le (n : UInt64) : (decimal n.toNat).length ≤ 20 := by
  rw [decimal, List.length_map, Nat.length_toDigits_le_iff (by decide) (by decide)]
  exact Nat.lt_trans n.toNat_lt (by decide)

theorem toNat_ofNat_digit (h : n < 10) : (UInt8.ofNat (48 + n)).toNat - 48 = n := by
  rw [UInt8.toNat_ofNat', Nat.mod_eq_of_lt (by omega), Nat.add_sub_cancel_left]

theorem digitsValue_decimal (n : Nat) : digitsValue (decimal n) = n := by
  induction n using Nat.strongRecOn with
  | ind n ih =>
    by_cases hn : n < 10
    · rw [decimal_of_lt hn, ← List.nil_append [_], digitsValue_append_singleton,
        toNat_ofNat_digit hn]
      exact Nat.zero_add n
    · have hdigit : n % 10 < 10 := Nat.mod_lt n (by decide)
      rw [decimal_of_le (by omega), digitsValue_append_singleton, ih (n / 10) (by omega),
        toNat_ofNat_digit hdigit]
      exact Nat.div_add_mod n 10

theorem denotes_decimal (n : Nat) : Denotes (decimal n) n :=
  ⟨decimal_ne_nil n, fun _ => toNat_of_mem_decimal, digitsValue_decimal n⟩

theorem exists_zeros_append_decimal {text : Bytes} (hne : text ≠ [])
    (hdigits : ∀ c ∈ text, 48 ≤ c.toNat ∧ c.toNat ≤ 57) :
    ∃ zeros, text = List.replicate zeros 48 ++ decimal (digitsValue text) := by
  induction text using List.reverseRecOn with
  | nil => contradiction
  | append_singleton text c ih =>
    have hc := hdigits c (by simp)
    have hlast : UInt8.ofNat (48 + (c.toNat - 48)) = c := by
      rw [Nat.add_sub_cancel' hc.1, UInt8.ofNat_toNat]
    rw [digitsValue_append_singleton]
    by_cases htext : text = []
    · refine ⟨0, ?_⟩
      subst htext
      rw [decimal_of_lt (by simp [digitsValue]; omega)]
      simpa [digitsValue] using hlast.symm
    -- In front of the last digit is the rest of the number, unless there are only zeros.
    obtain ⟨zeros, heq⟩ := ih htext fun c hc => hdigits c (List.mem_append_left _ hc)
    by_cases hvalue : digitsValue text = 0
    · refine ⟨zeros + 1, ?_⟩
      rw [hvalue, Nat.mul_zero, Nat.zero_add, decimal_of_lt (by omega), hlast, heq, hvalue,
        List.replicate_succ']
      rfl
    · refine ⟨zeros, ?_⟩
      have hdiv : (10 * digitsValue text + (c.toNat - 48)) / 10 = digitsValue text := by omega
      have hmod : (10 * digitsValue text + (c.toNat - 48)) % 10 = c.toNat - 48 := by omega
      rw [decimal_of_le (by omega), hdiv, hmod, hlast, ← List.append_assoc, ← heq]

theorem shortest_decimal (n : Nat) : Shortest (decimal n) n := by
  refine ⟨denotes_decimal n, ?_⟩
  rintro other ⟨hne, hdigits, rfl⟩ hother
  obtain ⟨zeros, heq⟩ := exists_zeros_append_decimal hne hdigits
  cases zeros with
  | zero => exact absurd heq hother
  | succ zeros =>
    have hlength := congrArg List.length heq
    rw [List.length_append, List.length_replicate] at hlength
    omega

namespace Writer

inductive Call where
  | put (piece : Bytes)
  | putQuoted (text : Bytes)
  | putNumber (n : UInt64)

namespace Call

def writer : Call → Writer Unit
  | .put piece => Writer.put piece
  | .putQuoted text => Writer.putQuoted text
  | .putNumber n => Writer.putNumber n.toNat

def pieces : Call → List Bytes
  | .put piece => [piece]
  | .putQuoted text => [ascii "\"", text, ascii "\""]
  | .putNumber n => [decimal n.toNat]

end Call

def run (region : Region) (calls : List Call) : Region :=
  calls.foldl (fun region call => (call.writer.perform region).2) region

structure Offer where
  piece : Bytes
  before : Region
  deriving DecidableEq, Repr

namespace Offer

def outcome (offer : Offer) : Except Fault Unit :=
  ((put offer.piece).perform offer.before).1

def after (offer : Offer) : Region :=
  ((put offer.piece).perform offer.before).2

def taken (offer : Offer) : Bool :=
  offer.outcome.isOk

end Offer

def putAll (pieces : List Bytes) : Writer Unit :=
  pieces.forM Writer.put

def offers (region : Region) : (pieces : List Bytes) → List Offer
  | [] => []
  | piece :: pieces =>
    let offer : Offer := ⟨piece, region⟩
    offer :: if offer.taken then offers offer.after pieces else []

def offersOf (region : Region) : (calls : List Call) → List Offer
  | [] => []
  | call :: calls =>
    offers region call.pieces ++ offersOf (call.writer.perform region).2 calls

def accepted (log : List Offer) : Bytes :=
  (log.filter Offer.taken).flatMap Offer.piece

theorem accepted_append (log more : List Offer) :
    accepted (log ++ more) = accepted log ++ accepted more := by
  rw [accepted, List.filter_append, List.flatMap_append]
  rfl

theorem accepted_cons_of_taken (h : offer.taken) (log : List Offer) :
    accepted (offer :: log) = offer.piece ++ accepted log := by
  rw [accepted, List.filter_cons_of_pos h, List.flatMap_cons]
  rfl

theorem accepted_singleton_of_refused (h : ¬offer.taken) : accepted [offer] = [] := by
  rw [accepted, List.filter_cons_of_neg h]
  rfl

structure Fills (out : Bytes) (region : Region) : Prop where
  free_eq : region.free = out.drop region.written.length
  length_le : region.written.length ≤ out.length - 1

/--
An offer is taken if it leaves a byte free behind it, and only then. It either appends the piece or
changes nothing, and never changes a byte behind the position.
-/
structure Offer.AllOrNothing (out : Bytes) (offer : Offer) : Prop where
  taken_iff : offer.taken ↔ offer.before.written.length + offer.piece.length + 1 ≤ out.length
  of_taken : offer.taken → offer.after.written = offer.before.written ++ offer.piece
  of_refused : ¬offer.taken → offer.outcome = .error .textTooLong ∧ offer.after = offer.before
  memory_before : offer.before.memory = overwrite out offer.before.written
  memory_after : offer.after.memory = overwrite out offer.after.written

namespace Offer

variable {offer : Offer}

theorem taken_iff_lt : offer.taken ↔ offer.piece.length < offer.before.free.length := by
  rw [taken, outcome, perform_put]
  split
  · next hroom => simpa [Except.isOk, Except.toBool] using hroom
  · next hroom => simpa [Except.isOk, Except.toBool] using hroom

theorem perform_of_taken (h : offer.taken) :
    (put offer.piece).perform offer.before = (.ok (), offer.before.write offer.piece) := by
  rw [perform_put, if_pos (taken_iff_lt.1 h)]

theorem perform_of_refused (h : ¬offer.taken) :
    (put offer.piece).perform offer.before = (.error .textTooLong, offer.before) := by
  rw [perform_put, if_neg (mt taken_iff_lt.2 h)]

end Offer

theorem Fills.memory_eq {region : Region} (h : Fills out region) :
    region.memory = overwrite out region.written := by
  rw [Region.memory, h.free_eq, overwrite]

theorem Fills.length_free {region : Region} (h : Fills out region) :
    region.free.length = out.length - region.written.length := by
  rw [h.free_eq, List.length_drop]

theorem Fills.after {offer : Offer} (h : Fills out offer.before) : Fills out offer.after := by
  rw [Offer.after]
  by_cases htaken : offer.taken
  · have hroom := Offer.taken_iff_lt.1 htaken
    rw [h.length_free] at hroom
    rw [Offer.perform_of_taken htaken]
    refine ⟨?_, ?_⟩
    · rw [Region.written_write, List.length_append, ← List.drop_drop, ← h.free_eq]
      rfl
    · rw [Region.written_write, List.length_append]
      omega
  · rw [Offer.perform_of_refused htaken]
    exact h

theorem Fills.allOrNothing {offer : Offer} (h : Fills out offer.before) : offer.AllOrNothing out := by
  refine ⟨?_, ?_, ?_, h.memory_eq, h.after.memory_eq⟩
  · rw [Offer.taken_iff_lt, h.length_free]
    omega
  · intro htaken
    rw [Offer.after, Offer.perform_of_taken htaken]
    rfl
  · intro hrefused
    rw [Offer.outcome, Offer.after, Offer.perform_of_refused hrefused]
    exact ⟨rfl, rfl⟩

theorem fills_ofMemory (out : Bytes) : Fills out (.ofMemory out) := ⟨rfl, Nat.zero_le _⟩

theorem perform_putAll_cons (piece : Bytes) (pieces : List Bytes) (region : Region) :
    (putAll (piece :: pieces)).perform region =
      let offer : Offer := ⟨piece, region⟩
      if offer.taken then (putAll pieces).perform offer.after else (offer.outcome, offer.after) := by
  have hcons : putAll (piece :: pieces) = put piece >>= fun _ => putAll pieces := rfl
  let offer : Offer := ⟨piece, region⟩
  rw [hcons, Attempt.perform_bind]
  by_cases htaken : offer.taken
  · rw [if_pos htaken, Offer.after, offer.perform_of_taken htaken]
  · rw [if_neg htaken, Offer.outcome, Offer.after, offer.perform_of_refused htaken]

theorem Call.putAll_pieces (call : Call) : putAll call.pieces = call.writer := by
  cases call with
  | put piece => exact bind_pure_unit
  | putQuoted text => simp [putAll, pieces, writer, Writer.putQuoted]
  | putNumber n => exact bind_pure_unit

theorem outcome_putAll (pieces : List Bytes) (region : Region) :
    ((putAll pieces).perform region).1 =
      if (offers region pieces).all Offer.taken then .ok () else .error .textTooLong := by
  induction pieces generalizing region with
  | nil => rfl
  | cons piece pieces ih =>
    rw [perform_putAll_cons, offers]
    dsimp only
    split
    · next htaken =>
      rw [ih, List.all_cons, htaken, Bool.true_and]
    · next hrefused =>
      rw [List.all_cons, Bool.eq_false_iff.2 hrefused, Offer.outcome, Offer.perform_of_refused hrefused]
      rfl

theorem written_putAll (pieces : List Bytes) (region : Region) :
    ((putAll pieces).perform region).2.written =
      region.written ++ accepted (offers region pieces) := by
  induction pieces generalizing region with
  | nil => exact (List.append_nil _).symm
  | cons piece pieces ih =>
    rw [perform_putAll_cons, offers]
    dsimp only
    split
    · next htaken =>
      rw [ih, accepted_cons_of_taken htaken, Offer.after, Offer.perform_of_taken htaken]
      exact List.append_assoc _ _ _
    · next hrefused =>
      rw [accepted_singleton_of_refused hrefused, Offer.after, Offer.perform_of_refused hrefused]
      exact (List.append_nil _).symm

theorem Fills.putAll {region : Region} (h : Fills out region) (pieces : List Bytes) :
    Fills out ((putAll pieces).perform region).2 ∧
      ∀ offer ∈ offers region pieces, Fills out offer.before := by
  induction pieces generalizing region with
  | nil => exact ⟨h, nofun⟩
  | cons piece pieces ih =>
    let offer : Offer := ⟨piece, region⟩
    have hafter : Fills out offer.after := Fills.after h
    rw [perform_putAll_cons, offers]
    dsimp only
    split
    · next htaken =>
      rw [List.forall_mem_cons]
      exact ⟨(ih hafter).1, h, (ih hafter).2⟩
    · next hrefused =>
      rw [List.forall_mem_singleton]
      exact ⟨hafter, h⟩

theorem run_cons (region : Region) (call : Call) (calls : List Call) :
    run region (call :: calls) = run (call.writer.perform region).2 calls := rfl

theorem written_run (region : Region) (calls : List Call) :
    (run region calls).written = region.written ++ accepted (offersOf region calls) := by
  induction calls generalizing region with
  | nil => exact (List.append_nil _).symm
  | cons call calls ih =>
    rw [run_cons, ih, ← call.putAll_pieces, written_putAll, offersOf, accepted_append,
      List.append_assoc, call.putAll_pieces]

theorem Fills.run {region : Region} (h : Fills out region) (calls : List Call) :
    Fills out (run region calls) ∧ ∀ offer ∈ offersOf region calls, Fills out offer.before := by
  induction calls generalizing region with
  | nil => exact ⟨h, nofun⟩
  | cons call calls ih =>
    obtain ⟨hafter, hoffers⟩ := h.putAll call.pieces
    rw [call.putAll_pieces] at hafter
    rw [run_cons, offersOf, List.forall_mem_append]
    exact ⟨(ih hafter).1, hoffers, (ih hafter).2⟩

theorem terminate_of_fills {region : Region} (h : Fills out region) :
    terminate region =
      if out = [] then .error .textTooLong
      else .ok (region.written.length, overwrite out (region.written ++ [0])) := by
  by_cases hout : out = []
  · have hfree : region.free = [] := by rw [h.free_eq, hout, List.drop_nil]
    rw [if_pos hout, terminate, hfree]
  · have hpositive := List.length_pos_iff.2 hout
    have hlength : region.written.length < out.length := by
      have hle := h.length_le
      omega
    have hfree := h.free_eq
    rw [List.drop_eq_getElem_cons hlength] at hfree
    rw [if_neg hout, terminate, hfree, overwrite, List.length_append, List.length_singleton,
      List.append_assoc, List.singleton_append]

theorem calls_are_all_or_nothing (out : Bytes) (calls : List Call) :
    let region := run (.ofMemory out) calls
    let log := offersOf (.ofMemory out) calls
    region.written = accepted log ∧
      region.memory = overwrite out region.written ∧ region.memory.length = out.length ∧
      (∀ offer ∈ log, offer.AllOrNothing out) ∧
      (∀ call : Call, (call.writer.perform region).1 =
        if (offers region call.pieces).all Offer.taken then .ok () else .error .textTooLong) ∧
      (terminate region =
        if out = [] then .error .textTooLong
        else .ok (region.written.length, overwrite out (region.written ++ [0]))) ∧
      ∀ n : UInt64, ∃ text, (Call.putNumber n).pieces = [text] ∧ Shortest text n.toNat ∧
        text.length ≤ 20 := by
  intro region log
  obtain ⟨hregion, hlog⟩ := (fills_ofMemory out).run calls
  have hwritten : region.written = accepted log := written_run (.ofMemory out) calls
  have hmemory : region.memory = overwrite out region.written := hregion.memory_eq
  refine ⟨hwritten, hmemory, ?_, ?_, ?_, terminate_of_fills hregion, ?_⟩
  · rw [hmemory]
    exact length_overwrite (Nat.le_trans hregion.length_le (Nat.sub_le _ _))
  · intro offer hoffer
    exact (hlog offer hoffer).allOrNothing
  · intro call
    rw [← call.putAll_pieces]
    exact outcome_putAll call.pieces region
  · intro n
    exact ⟨decimal n.toNat, rfl, shortest_decimal n.toNat, length_decimal_le n⟩

theorem calls_are_all_or_nothing_six :
    let out : Bytes := List.replicate 6 255
    let region := run (.ofMemory out) [.put (ascii "abc"), .putQuoted (ascii "d"), .putNumber 7]
    let quote : Offer := ⟨ascii "\"", ⟨ascii "abc\"d", [255]⟩⟩
    quote.AllOrNothing out ∧ ¬quote.taken ∧
      terminate region = .ok (5, ascii "abc\"d" ++ [0]) := by
  intro out region quote
  obtain ⟨-, -, -, hlog, -, hterminate, -⟩ := calls_are_all_or_nothing out
    [.put (ascii "abc"), .putQuoted (ascii "d"), .putNumber 7]
  exact ⟨hlog quote (by decide), by decide, hterminate⟩

end Writer

end ClearSign
