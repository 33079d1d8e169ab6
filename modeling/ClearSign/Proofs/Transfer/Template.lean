import ClearSign.Proofs.Binary.Slot
import ClearSign.Transfer.Template

/-!
This module contains the proof that a compact transfer is read exactly as it is written. Every
transfer within the limits has one compact form, no compact form is the beginning of another one,
and whatever else is sent is refused for what is wrong first.
-/

namespace ClearSign.Template

open Binary

structure Bounded (t : Template) : Prop where
  recipient : t.recipient.length = 64
  recipientChain : t.recipientChain.length ≤ 2
  network : t.network.length ≤ 20
  amount : t.amount.length ≤ 32
  moduleSpace : t.moduleSpace.length ≤ 16
  moduleName : t.moduleName.length ≤ 32
  gasPrice : t.gasPrice.length ≤ 10
  gasLimit : t.gasLimit.length ≤ 20
  creationTime : t.creationTime.length ≤ 12
  chain : t.chain.length ≤ 2
  nonce : t.nonce.length ≤ 32
  ttl : t.ttl.length ≤ 20

def encode (t : Template) : Bytes :=
  t.kind.toByte :: t.fields.flatMap prefixed

def slots : List Slot :=
  [⟨64, true⟩, ⟨2, false⟩, ⟨20, false⟩, ⟨32, false⟩, ⟨16, false⟩, ⟨32, false⟩, ⟨10, false⟩,
   ⟨20, false⟩, ⟨12, false⟩, ⟨2, false⟩, ⟨32, false⟩, ⟨20, false⟩]

def ofFields (kind : Template.Kind) (fields : List Bytes) : Template where
  kind := kind
  recipient := fields.getD 0 []
  recipientChain := fields.getD 1 []
  network := fields.getD 2 []
  amount := fields.getD 3 []
  moduleSpace := fields.getD 4 []
  moduleName := fields.getD 5 []
  gasPrice := fields.getD 6 []
  gasLimit := fields.getD 7 []
  creationTime := fields.getD 8 []
  chain := fields.getD 9 []
  nonce := fields.getD 10 []
  ttl := fields.getD 11 []

/--
What is wrong first with an input that is not the compact form of any transfer.
-/
inductive Refused : Bytes → Fault → Prop where
  | empty : Refused [] .endOfBuffer
  | kind (byte : UInt8) (rest : Bytes) : byte ∉ [0, 1, 2] →
      Refused (byte :: rest) .unknownTransactionType
  | field (kind : Template.Kind) (rest : Bytes) (fault : Fault) :
      Slot.FirstRefuses slots rest fault → Refused (kind.toByte :: rest) fault
  | trailing (t : Template) (rest : Bytes) : t.Bounded → rest ≠ [] →
      Refused (t.encode ++ rest) .unparsedBytes

theorem limit_lt_of_mem_slots : ∀ slot ∈ slots, slot.limit < UInt8.size := by
  decide

theorem fields_ofFields (kind : Template.Kind) : ∀ fields : List Bytes,
    fields.length = slots.length → (ofFields kind fields).fields = fields
  | [_, _, _, _, _, _, _, _, _, _, _, _], _ => rfl

theorem bounded_iff {t : Template} : t.Bounded ↔ List.Forall₂ Slot.Accepts slots t.fields := by
  simp only [slots, fields, List.forall₂_cons, List.forall₂_nil_left_iff, Slot.accepts_iff_le,
    Slot.accepts_iff_eq, and_true]
  constructor
  · intro h
    exact ⟨h.recipient, h.recipientChain, h.network, h.amount, h.moduleSpace, h.moduleName,
      h.gasPrice, h.gasLimit, h.creationTime, h.chain, h.nonce, h.ttl⟩
  · rintro ⟨recipient, recipientChain, network, amount, moduleSpace, moduleName, gasPrice, gasLimit,
      creationTime, chain, nonce, ttl⟩
    exact { recipient, recipientChain, network, amount, moduleSpace, moduleName, gasPrice, gasLimit,
            creationTime, chain, nonce, ttl }

theorem read_eq : read = do
    let kind ← match Template.Kind.ofByte (← Reader.byte) with
      | .ok kind => pure kind
      | .error fault => Reader.refuse fault
    let fields ← slots.mapM Slot.read
    return ofFields kind fields := by
  unfold read
  simp only [slots, List.mapM_cons, List.mapM_nil, Slot.read, recipientLength, bind_assoc,
    pure_bind, Bool.false_eq_true, false_and, if_false, true_and, Reader.refuse_bind,
    Reader.check_bind]
  rfl

theorem run_read_cons (byte : UInt8) (rest : Bytes) :
    read.run (byte :: rest) =
      match Template.Kind.ofByte byte with
      | .ok kind => (slots.mapM Slot.read).run rest >>= fun (fields, rest) =>
          .ok (ofFields kind fields, rest)
      | .error fault => .error (.final fault) := by
  have hbyte : Reader.byte.run (byte :: rest) = .ok (byte, rest) := rfl
  rw [read_eq, StateT.run_bind, hbyte, ok_bind]
  dsimp only
  cases Template.Kind.ofByte byte with
  | ok kind => rfl
  | error fault => rfl

theorem run_read_encode {t : Template} (h : t.Bounded) (rest : Bytes) :
    read.run (t.encode ++ rest) = .ok (t, rest) := by
  rw [encode, List.cons_append, run_read_cons, Template.Kind.ofByte_toByte]
  dsimp only
  rw [Slot.run_mapM_read (bounded_iff.1 h) limit_lt_of_mem_slots, ok_bind]
  rfl

theorem ofBytes_encode {t : Template} (h : t.Bounded) : ofBytes t.encode = .ok t := by
  have hread := run_read_encode h []
  rw [List.append_nil] at hread
  rw [ofBytes, hread]

theorem ofByte_of_not_mem (h : byte ∉ [0, 1, 2]) :
    Template.Kind.ofByte byte = .error .unknownTransactionType := by
  simp only [List.mem_cons, List.not_mem_nil, or_false, not_or] at h
  rw [Template.Kind.ofByte, if_neg h.1, if_neg h.2.1, if_neg h.2.2]

theorem exists_toByte_of_mem (h : byte ∈ [0, 1, 2]) :
    ∃ kind : Template.Kind, kind.toByte = byte := by
  simp only [List.mem_cons, List.not_mem_nil, or_false] at h
  rcases h with rfl | rfl | rfl
  · exact ⟨.transfer, rfl⟩
  · exact ⟨.transferCreate, rfl⟩
  · exact ⟨.crossChain, rfl⟩

theorem ofBytes_of_refused (h : Refused input fault) : ofBytes input = .error fault := by
  unfold ofBytes
  cases h with
  | empty => rfl
  | kind byte rest hbyte =>
    rw [run_read_cons, ofByte_of_not_mem hbyte]
    rfl
  | field kind rest fault hfirst =>
    obtain ⟨stop, hstop, hfault⟩ := Slot.run_mapM_read_of_firstRefuses hfirst limit_lt_of_mem_slots
    rw [run_read_cons, Template.Kind.ofByte_toByte]
    dsimp only
    rw [hstop, error_bind]
    exact congrArg Except.error hfault
  | trailing t rest hbounded hrest =>
    obtain ⟨b, rest, rfl⟩ := List.exists_cons_of_ne_nil hrest
    rw [run_read_encode hbounded]

theorem encode_or_refused (input : Bytes) :
    (∃ t : Template, t.Bounded ∧ input = t.encode) ∨ ∃ fault, Refused input fault := by
  cases input with
  | nil => exact .inr ⟨_, .empty⟩
  | cons byte rest =>
    by_cases hbyte : byte ∈ [0, 1, 2]
    · obtain ⟨kind, rfl⟩ := exists_toByte_of_mem hbyte
      rcases Slot.all_accept_or_first_refuses slots rest with
        ⟨fields, last, hfields, rfl⟩ | ⟨fault, hfirst⟩
      · have hsame := fields_ofFields kind fields hfields.length_eq.symm
        have hbounded : (ofFields kind fields).Bounded := bounded_iff.2 (by rwa [hsame])
        have hencode : kind.toByte :: (fields.flatMap prefixed ++ last) =
            (ofFields kind fields).encode ++ last := by
          rw [encode, hsame, List.cons_append]
          rfl
        rw [hencode]
        cases last with
        | nil => exact .inl ⟨_, hbounded, List.append_nil _⟩
        | cons b last => exact .inr ⟨_, .trailing _ _ hbounded (List.cons_ne_nil b last)⟩
      · exact .inr ⟨fault, .field kind rest fault hfirst⟩
    · exact .inr ⟨_, .kind byte rest hbyte⟩

theorem eq_encode_of_ofBytes (h : ofBytes input = .ok t) : t.Bounded ∧ input = t.encode := by
  rcases encode_or_refused input with ⟨other, hbounded, rfl⟩ | ⟨fault, hrefused⟩
  · rw [ofBytes_encode hbounded] at h
    cases h
    exact ⟨hbounded, rfl⟩
  · rw [ofBytes_of_refused hrefused] at h
    contradiction

theorem bounded_of_ofBytes (h : ofBytes input = .ok t) : t.Bounded :=
  (eq_encode_of_ofBytes h).1

theorem ofBytes_eq_error_iff : ofBytes input = .error fault ↔ Refused input fault := by
  constructor
  · intro h
    rcases encode_or_refused input with ⟨t, hbounded, rfl⟩ | ⟨other, hrefused⟩
    · rw [ofBytes_encode hbounded] at h
      contradiction
    · rw [ofBytes_of_refused hrefused] at h
      cases h
      exact hrefused
  · exact ofBytes_of_refused

theorem eq_nil_of_ofBytes_append (h : ofBytes input = .ok t)
    (h' : ofBytes (input ++ rest) = .ok other) : rest = [] := by
  obtain ⟨hbounded, rfl⟩ := eq_encode_of_ofBytes h
  by_contra hrest
  rw [ofBytes_of_refused (.trailing t rest hbounded hrest)] at h'
  contradiction

theorem transfers_are_decoded_exactly :
    (∀ t : Template, t.Bounded → ofBytes t.encode = .ok t) ∧
    (∀ input t, ofBytes input = .ok t → t.Bounded ∧ t.encode = input) ∧
    (∀ input other t, ofBytes input = .ok t → ofBytes other = .ok t → input = other) ∧
    (∀ input rest t t', ofBytes input = .ok t → ofBytes (input ++ rest) = .ok t' → rest = []) ∧
    (∀ input, (∀ t : Template, t.Bounded → t.encode ≠ input) → ∃ fault, Refused input fault) ∧
    (∀ input fault, ofBytes input = .error fault ↔ Refused input fault) := by
  refine ⟨fun t => ofBytes_encode, ?_, ?_, ?_, ?_, fun input fault => ofBytes_eq_error_iff⟩
  · intro input t h
    obtain ⟨hbounded, hinput⟩ := eq_encode_of_ofBytes h
    exact ⟨hbounded, hinput.symm⟩
  · intro input other t h h'
    exact (eq_encode_of_ofBytes h).2.trans (eq_encode_of_ofBytes h').2.symm
  · intro input rest t t'
    exact eq_nil_of_ofBytes_append
  · intro input h
    rcases encode_or_refused input with ⟨t, hbounded, hinput⟩ | hrefused
    · exact absurd hinput.symm (h t hbounded)
    · exact hrefused

def acrossChains : Template where
  kind := .crossChain
  recipient := List.replicate 64 0x62
  recipientChain := ascii "1"
  network := ascii "testnet04"
  amount := ascii "0.25"
  moduleSpace := ascii "user"
  moduleName := ascii "token"
  gasPrice := ascii "1.0e-6"
  gasLimit := ascii "2300"
  creationTime := ascii "1665722463"
  chain := ascii "0"
  nonce := []
  ttl := ascii "600"

theorem bounded_acrossChains : acrossChains.Bounded := by
  constructor <;> decide +kernel

theorem transfers_are_decoded_exactly_across :
    acrossChains.Bounded ∧ ofBytes acrossChains.encode = .ok acrossChains ∧
      (∀ input, ofBytes input = .ok acrossChains → input = acrossChains.encode) ∧
      ofBytes (acrossChains.encode ++ [0]) = .error .unparsedBytes ∧
      ofBytes [3] = .error .unknownTransactionType := by
  obtain ⟨hread, -, hsame, -, -, hrefused⟩ := transfers_are_decoded_exactly
  have hacross := hread acrossChains bounded_acrossChains
  refine ⟨bounded_acrossChains, hacross, ?_, ?_, ?_⟩
  · intro input hinput
    exact hsame _ _ _ hinput hacross
  · exact (hrefused _ _).2 (.trailing _ _ bounded_acrossChains (List.cons_ne_nil 0 []))
  · exact (hrefused _ _).2 (.kind 3 [] (by decide))

-- A length above the limit comes before the end of the input.
example : ofBytes [0, 65] = .error .valueOutOfRange := by
  rfl

end ClearSign.Template
