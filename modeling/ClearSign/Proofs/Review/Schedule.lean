import ClearSign.Proofs.Outcome
import ClearSign.Review.ItemList

/-!
This module contains the items that a transaction calls for, and what each part of a review adds to
the list of items: all of its items if there is room for them, and as many as there is room for
otherwise.
-/

namespace ClearSign

namespace Json.Document

def isNamed (doc : Document) (capability : Nat) (name : Bytes) : Bool :=
  (doc.field? capability (ascii "name")).any fun value => doc.isStringOf value name

def hasArgs (doc : Document) (capability n : Nat) : Bool :=
  (doc.field? capability (ascii "args")).any fun args =>
    doc.isArray args && (doc.children args).length == n

theorem isNull_eq_false_of_isString {doc : Document} (h : doc.isString i) : doc.isNull i = false := by
  simp only [isString, beq_iff_eq] at h
  simp [isNull, h]

theorem isNull_eq_false_of_isArray {doc : Document} (h : doc.isArray i) : doc.isNull i = false := by
  simp only [isArray, beq_iff_eq] at h
  simp [isNull, h]

theorem present?_eq_some_iff {doc : Document} :
    doc.present? object key = some value ↔
      doc.field? object key = some value ∧ ¬ doc.isNull value := by
  rw [present?, Option.filter_eq_some_iff, Bool.not_eq_true', Bool.not_eq_true]

theorem filter_isArray_eq_some_iff {doc : Document} :
    (doc.present? object key).filter doc.isArray = some value ↔
      doc.field? object key = some value ∧ doc.isArray value := by
  -- An array is not `null`, so it is present wherever it is found.
  rw [Option.filter_eq_some_iff, present?_eq_some_iff, and_assoc]
  constructor
  · rintro ⟨hfield, -, harray⟩
    exact ⟨hfield, harray⟩
  · rintro ⟨hfield, harray⟩
    exact ⟨hfield, by simp [isNull_eq_false_of_isArray harray], harray⟩

theorem isNamed_of_capabilityName {doc : Document} {found : Option Bytes}
    (h : doc.capabilityName capability = .ok found) (name : Bytes) :
    doc.isNamed capability name = (found == some name) := by
  unfold capabilityName present? at h
  unfold isNamed
  cases hfield : doc.field? capability (ascii "name") with
  | none =>
    simp only [hfield, Option.filter_none] at h
    cases h
    rfl
  | some value =>
    simp only [hfield, Option.filter_some] at h
    simp only [Option.any_some, isStringOf]
    cases hstring : doc.isString value with
    | false =>
      have hnone : found = none := by
        split at h
        · next heq =>
          split at heq
          · cases heq
            simp only [hstring] at h
            cases h
            rfl
          · contradiction
        · cases h
          rfl
      rw [hnone]
      rfl
    | true =>
      simp only [isNull_eq_false_of_isString hstring, Bool.not_false, if_true, hstring] at h
      cases htext : doc.text value with
      | error fault =>
        rw [htext] at h
        contradiction
      | ok text =>
        rw [htext] at h
        cases h
        simp [reads, htext]

theorem eq_of_isNamed {doc : Document} (h : doc.isNamed capability name)
    (h' : doc.isNamed capability name') : name = name' := by
  unfold isNamed at h h'
  cases hfield : doc.field? capability (ascii "name") with
  | none => simp [hfield] at h
  | some value =>
    simp only [hfield, Option.any_some, isStringOf, reads, Bool.and_eq_true] at h h'
    split at h
    · next text htext =>
      simp only [htext, beq_iff_eq] at h h'
      rw [← h.2, h'.2]
    · simp at h

theorem hasArgs_eq_argCount? (doc : Document) (capability n : Nat) :
    doc.hasArgs capability n = (doc.argCount? capability == some n) := by
  unfold hasArgs argCount? args? present?
  cases hfield : doc.field? capability (ascii "args") with
  | none => rfl
  | some args =>
    simp only [Option.any_some, Option.filter_some]
    cases harray : doc.isArray args with
    | false =>
      cases doc.isNull args with
      | false => simp [Option.filter_some, harray]
      | true => simp
    | true =>
      have hnull := isNull_eq_false_of_isArray harray
      simp [Option.filter_some, hnull, harray, arrayCount?]

def isAccountOf (doc : Document) (key : Bytes) (i : Nat) : Bool :=
  doc.isString i &&
    match doc.text i with
    | .ok account => accountKey account == key
    | .error _ => false

def isTransfer (doc : Document) (capability : Nat) : Bool :=
  doc.isNamed capability Capability.transfer || doc.isNamed capability Capability.crossTransfer

def namesAccount (doc : Document) (key : Bytes) (capability : Nat) : Bool :=
  ((doc.args? capability).elim [] doc.children).any (doc.isAccountOf key)

def bindsKey (doc : Document) (key : Nat) : Bool :=
  match doc.capabilityList?, doc.text key with
  | some list, .ok text =>
    ((doc.children list).any fun capability =>
        doc.isTransfer capability && doc.namesAccount text capability) ||
      !(doc.children list).any doc.isTransfer
  | _, _ => false

def Readable (doc : Document) : Prop :=
  ∀ i < doc.tokens.length, ∃ text, doc.text i = .ok text

theorem lt_of_isString {doc : Document} (h : doc.isString i) : i < doc.tokens.length := by
  simp only [isString, kind?, beq_iff_eq, Option.map_eq_some_iff] at h
  obtain ⟨token, htoken, -⟩ := h
  exact (List.getElem?_eq_some_iff.1 htoken).1

theorem Readable.exists_capabilityName {doc : Document} (h : doc.Readable) (capability : Nat) :
    ∃ name, doc.capabilityName capability = .ok name := by
  unfold capabilityName
  split
  · split
    · next hstring =>
      obtain ⟨text, htext⟩ := h _ (lt_of_isString hstring)
      rw [htext]
      exact ⟨_, rfl⟩
    · exact ⟨_, rfl⟩
  · exact ⟨_, rfl⟩

theorem mentionsKey_eq_ok {doc : Document} (h : doc.mentionsKey key args = .ok found) :
    found = args.any (doc.isAccountOf key) := by
  induction args with
  | nil =>
    cases h
    rfl
  | cons arg args ih =>
    rw [mentionsKey] at h
    rw [List.any_cons, isAccountOf]
    split at h
    · next hstring =>
      rw [bind_eq_ok] at h
      obtain ⟨account, haccount, h⟩ := h
      simp only [hstring, haccount, Bool.true_and]
      split at h
      · next heq =>
        cases h
        rw [heq, Bool.true_or]
      · next hne =>
        rw [Bool.not_eq_true] at hne
        rw [hne, Bool.false_or, ih h]
    · next hstring =>
      rw [Bool.not_eq_true] at hstring
      rw [hstring, Bool.false_and, Bool.false_or, ih h]

theorem Readable.exists_mentionsKey {doc : Document} (h : doc.Readable) (key : Bytes)
    (args : List Nat) : ∃ found, doc.mentionsKey key args = .ok found := by
  induction args with
  | nil => exact ⟨_, rfl⟩
  | cons arg args ih =>
    rw [mentionsKey]
    split
    · next hstring =>
      obtain ⟨account, haccount⟩ := h _ (lt_of_isString hstring)
      rw [haccount, ok_bind]
      split
      · exact ⟨_, rfl⟩
      · exact ih
    · exact ih

theorem isTransferName_of_capabilityName {doc : Document} {found : Option Bytes}
    (h : doc.capabilityName capability = .ok found) :
    isTransferName found = doc.isTransfer capability := by
  rw [isTransferName, isTransfer, isNamed_of_capabilityName h, isNamed_of_capabilityName h]

theorem scopes_eq_ok {doc : Document} {found : Bool}
    (h : doc.scopes key found capabilities = .ok bound) :
    bound =
      ((capabilities.any fun capability =>
          doc.isTransfer capability && doc.namesAccount key capability) ||
        !(found || capabilities.any doc.isTransfer)) := by
  induction capabilities generalizing found with
  | nil =>
    cases h
    simp
  | cons capability capabilities ih =>
    rw [scopes, bind_eq_ok] at h
    obtain ⟨name, hname, h⟩ := h
    rw [isTransferName_of_capabilityName hname] at h
    rw [List.any_cons, List.any_cons]
    split at h
    · next htransfer =>
      dsimp only at h
      rw [bind_eq_ok] at h
      obtain ⟨mentioned, hmentioned, h⟩ := h
      have hnames : mentioned = doc.namesAccount key capability := mentionsKey_eq_ok hmentioned
      rw [htransfer, ← hnames]
      split at h
      · next heq =>
        cases h
        rw [heq]
        rfl
      · next hne =>
        rw [Bool.not_eq_true] at hne
        rw [ih h, hne]
        simp
    · next htransfer =>
      rw [Bool.not_eq_true] at htransfer
      rw [ih h, htransfer]
      simp

theorem Readable.exists_scopes {doc : Document} (h : doc.Readable) (key : Bytes) (found : Bool)
    (capabilities : List Nat) : ∃ bound, doc.scopes key found capabilities = .ok bound := by
  induction capabilities generalizing found with
  | nil => exact ⟨_, rfl⟩
  | cons capability capabilities ih =>
    obtain ⟨name, hname⟩ := h.exists_capabilityName capability
    rw [scopes, hname, ok_bind]
    split
    · obtain ⟨mentioned, hmentioned⟩ :=
        h.exists_mentionsKey key ((doc.args? capability).elim [] doc.children)
      dsimp only
      rw [hmentioned, ok_bind]
      split
      · exact ⟨_, rfl⟩
      · exact ih true
    · exact ih found

theorem isScoped_eq_ok {doc : Document} {key : Nat}
    (h : doc.isScoped key doc.capabilityList? = .ok bound) : bound = doc.bindsKey key := by
  unfold isScoped at h
  unfold bindsKey
  split at h
  · next hlist =>
    cases h
    rw [hlist]
  · next list hlist =>
    rw [bind_eq_ok] at h
    obtain ⟨text, htext, h⟩ := h
    simp only [hlist, htext]
    rw [scopes_eq_ok h, Bool.false_or]

theorem Readable.exists_isScoped {doc : Document} (h : doc.Readable) (list : Option Nat)
    (hkey : key < doc.tokens.length) : ∃ bound, doc.isScoped key list = .ok bound := by
  unfold isScoped
  split
  · exact ⟨_, rfl⟩
  · obtain ⟨text, htext⟩ := h key hkey
    rw [htext, ok_bind]
    exact h.exists_scopes text false _

end Json.Document

inductive Grant where
  | payingGas
  | transfer
  | crossTransfer
  | rotate
  | unknown
  deriving DecidableEq

def Json.Document.grant (doc : Document) (gas : Option Nat) (capability : Nat) : Grant :=
  if gas == some capability && doc.hasArgs capability 0 then .payingGas
  else if doc.isNamed capability Capability.transfer && doc.hasArgs capability 3 then .transfer
  else if doc.isNamed capability Capability.crossTransfer && doc.hasArgs capability 4 then
    .crossTransfer
  else if doc.isNamed capability Capability.rotate && doc.hasArgs capability 1 then .rotate
  else .unknown

namespace ItemList

open Json (Document)

def enter (doc : Document) (gas : Option Nat) (list : ItemList) (capability : Nat) : ItemList :=
  match doc.grant gas capability with
  | .payingGas =>
    { list with items := list.items ++ [{ kind := .payingGas, token := capability }] }
  | .transfer =>
    { list with
      items := list.items ++ [{ kind := .transfer (list.transfers + 1), token := capability }]
      transfers := list.transfers + 1 }
  | .crossTransfer =>
    { list with
      items := list.items ++ [{ kind := .crossTransfer (list.transfers + 1), token := capability }]
      transfers := list.transfers + 1 }
  | .rotate => { list with items := list.items ++ [{ kind := .rotate, token := capability }] }
  | .unknown =>
    { list with
      items := list.items ++
        [{ kind := .unknownCapability (list.unknowns + 1), token := capability,
           shown := doc.showsArgs capability }]
      unknowns := list.unknowns + 1 }

def extend (list : ItemList) (items : List Item) : ItemList :=
  { list with items := list.items ++ items }

theorem extend_nil (list : ItemList) : list.extend [] = list := by
  simp [extend]

theorem extend_append (list : ItemList) (items more : List Item) :
    list.extend (items ++ more) = (list.extend items).extend more := by
  simp [extend]

structure Fills (readable : Prop) (attempt : Attempt ItemList α) (list after : ItemList)
    (result : α) : Prop where
  grows : list.items <+: after.items
  outcome : list.items.length ≤ Limit.items →
    (after.items.length ≤ Limit.items ∧ attempt.perform list = (.ok result, after)) ∨
      (Limit.items < after.items.length ∧
        ∃ stopped, attempt.perform list = (.error .tooManyItems, stopped) ∧
          stopped.items = after.items.take Limit.items) ∨
      (¬ readable ∧ ∃ fault stopped, attempt.perform list = (.error fault, stopped))

namespace Fills

theorem eq_of_ok {attempt : Attempt ItemList α} {list after found : ItemList} {result outcome : α}
    (h : Fills readable attempt list after result) (hroom : list.items.length ≤ Limit.items)
    (hok : attempt.perform list = (.ok outcome, found)) : outcome = result ∧ found = after := by
  rcases h.outcome hroom with ⟨-, hdone⟩ | ⟨-, stopped, hstopped, -⟩ | ⟨-, fault, stopped, hstopped⟩
  · rw [hok] at hdone
    cases hdone
    exact ⟨rfl, rfl⟩
  · rw [hok] at hstopped
    cases hstopped
  · rw [hok] at hstopped
    cases hstopped

theorem of_perform {attempt : Attempt ItemList α} {list after : ItemList} {result : α}
    (hperform : attempt.perform list = (.ok result, after)) (hitems : after.items = list.items) :
    Fills readable attempt list after result := by
  constructor
  · exact ⟨[], by rw [List.append_nil, hitems]⟩
  · intro hroom
    rw [← hitems] at hroom
    exact .inl ⟨hroom, hperform⟩

theorem push (item : Item) (list : ItemList) :
    Fills readable (ItemList.push item) list (list.extend [item]) () := by
  constructor
  · exact List.prefix_append _ _
  · intro hroom
    rw [perform_push, extend, List.length_append, List.length_singleton]
    split
    · next hlt => exact .inl ⟨hlt, rfl⟩
    · next hfull =>
      refine .inr (.inl ⟨by omega, list, rfl, ?_⟩)
      rw [List.take_left' (by omega)]

theorem done (list : ItemList) : Fills readable (pure ()) list (list.extend []) () := by
  rw [extend_nil]
  exact of_perform rfl rfl

theorem bind {x : Attempt ItemList α} {f : α → Attempt ItemList β} {list between after : ItemList}
    {a : α} {b : β} (hx : Fills readable x list between a)
    (hf : Fills readable (f a) between after b) : Fills readable (x >>= f) list after b := by
  constructor
  · exact hx.grows.trans hf.grows
  · intro hroom
    have hle := hf.grows.length_le
    rw [Attempt.perform_bind]
    rcases hx.outcome hroom with
      ⟨hbetween, hdone⟩ | ⟨hfull, stopped, hstopped, hitems⟩ | ⟨hread, fault, stopped, hstopped⟩
    · rw [hdone]
      exact hf.outcome hbetween
    · rw [hstopped]
      refine .inr (.inl ⟨by omega, stopped, rfl, ?_⟩)
      obtain ⟨rest, hrest⟩ := hf.grows
      rw [hitems, ← hrest, List.take_append_of_le_length (by omega)]
    · rw [hstopped]
      exact .inr (.inr ⟨hread, fault, stopped, rfl⟩)

theorem read {x : Except Fault α} {f : α → Attempt ItemList β} {list after : ItemList} {b : β}
    (hgrows : list.items <+: after.items) (hread : readable → ∃ a, x = .ok a)
    (hf : ∀ a, x = .ok a → Fills readable (f a) list after b) :
    Fills readable (liftM x >>= f) list after b := by
  cases x with
  | ok a => exact (of_perform (Attempt.perform_lift_ok a list) rfl).bind (hf a rfl)
  | error fault =>
    refine ⟨hgrows, fun _ => .inr (.inr ⟨?_, fault, list, rfl⟩)⟩
    intro h
    obtain ⟨a, ha⟩ := hread h
    contradiction

end Fills

theorem grows_enter (doc : Document) (gas : Option Nat) (list : ItemList) (capability : Nat) :
    list.items <+: (list.enter doc gas capability).items := by
  unfold enter
  split
  all_goals exact List.prefix_append _ _

theorem grows_foldl_enter (doc : Document) (gas : Option Nat) (list : ItemList)
    (capabilities : List Nat) :
    list.items <+: (capabilities.foldl (enter doc gas) list).items := by
  induction capabilities generalizing list with
  | nil => exact List.prefix_rfl
  | cons capability capabilities ih => exact (grows_enter doc gas list capability).trans (ih _)

theorem fills_pushUnknown {gas : Option Nat} (list : ItemList)
    (hgrant : doc.grant gas capability = .unknown) :
    Fills readable (pushUnknown doc capability) list (list.enter doc gas capability) () := by
  have hcount : nextUnknown.perform list =
      (.ok (list.unknowns + 1), { list with unknowns := list.unknowns + 1 }) := rfl
  rw [enter, hgrant]
  exact (Fills.of_perform hcount rfl).bind (.push _ _)

theorem fills_nextTransfer {f : Nat → Attempt ItemList Unit} {list after : ItemList}
    (hf : Fills readable (f (list.transfers + 1)) { list with transfers := list.transfers + 1 }
      after ()) : Fills readable (nextTransfer >>= f) list after () := by
  have hcount : nextTransfer.perform list =
      (.ok (list.transfers + 1), { list with transfers := list.transfers + 1 }) := rfl
  exact (Fills.of_perform hcount rfl).bind hf

theorem fills_pushCapability {gas : Option Nat} (doc : Document) (list : ItemList)
    (hgas : gas ≠ some capability) :
    Fills doc.Readable (pushCapability doc capability) list (list.enter doc gas capability) () := by
  have hgas' : (gas == some capability) = false := by simpa using hgas
  apply Fills.read (grows_enter doc gas list capability)
    (fun hread => hread.exists_capabilityName capability)
  intro name hname
  have hnamed := Json.Document.isNamed_of_capabilityName hname
  simp only [← hnamed, ← Json.Document.hasArgs_eq_argCount?]
  split
  · next hkind =>
    apply fills_nextTransfer
    simp only [enter, Json.Document.grant, hgas', hkind, Bool.false_and, Bool.false_eq_true, if_true,
      if_false]
    exact .push _ _
  · next htransfer =>
    split
    · next hkind =>
      apply fills_nextTransfer
      simp only [enter, Json.Document.grant, hgas', htransfer, hkind, Bool.false_and,
        Bool.false_eq_true, if_true, if_false]
      exact .push _ _
    · next hcrossTransfer =>
      split
      · next hkind =>
        simp only [enter, Json.Document.grant, hgas', htransfer, hcrossTransfer, hkind,
          Bool.false_and, Bool.false_eq_true, if_true, if_false]
        exact .push _ _
      · next hrotate =>
        apply fills_pushUnknown
        simp [Json.Document.grant, hgas', htransfer, hcrossTransfer, hrotate]

theorem fills_pushCapabilities (doc : Document) (gas : Option Nat) (list : ItemList)
    (capabilities : List Nat) :
    Fills doc.Readable (pushCapabilities doc gas capabilities) list
      ((capabilities.filter (gas != some ·)).foldl (enter doc gas) list) () := by
  induction capabilities generalizing list with
  | nil => exact .of_perform rfl rfl
  | cons capability capabilities ih =>
    rw [pushCapabilities, List.filter_cons]
    split
    · next hgas =>
      simp only [bne, hgas, Bool.not_true, Bool.false_eq_true, if_false]
      exact ih list
    · next hgas =>
      have hne : gas ≠ some capability := by simpa using hgas
      simp only [bne, hgas, Bool.not_false, if_true, List.foldl_cons]
      exact (fills_pushCapability doc list hne).bind (ih _)

theorem grant_of_isNamed_gas {doc : Document} (hname : doc.isNamed capability Capability.gas)
    (hargs : doc.hasArgs capability 0 = false) (gas : Option Nat) :
    doc.grant gas capability = .unknown := by
  have hother : ∀ name, name ≠ Capability.gas → doc.isNamed capability name = false := by
    intro name hne
    rw [Bool.eq_false_iff]
    intro hname'
    exact hne (Json.Document.eq_of_isNamed hname' hname)
  simp [Json.Document.grant, hargs, hother Capability.transfer (by decide),
    hother Capability.crossTransfer (by decide), hother Capability.rotate (by decide)]

theorem fills_pushPayingGas (doc : Document) (list : ItemList) (capabilities : List Nat) :
    Fills doc.Readable (pushPayingGas doc capabilities) list
      ((capabilities.find? (doc.isNamed · Capability.gas)).toList.foldl
        (enter doc (capabilities.find? (doc.isNamed · Capability.gas))) list)
      (capabilities.find? (doc.isNamed · Capability.gas)) := by
  induction capabilities with
  | nil => exact .of_perform rfl rfl
  | cons capability capabilities ih =>
    apply Fills.read (grows_foldl_enter _ _ _ _) (fun hread => hread.exists_capabilityName capability)
    intro name hname
    rw [← Json.Document.isNamed_of_capabilityName hname, ← Json.Document.hasArgs_eq_argCount?,
      List.find?_cons]
    split
    · next hgas =>
      rw [hgas]
      dsimp only [Option.toList_some, List.foldl_cons, List.foldl_nil]
      split
      · next hargs =>
        simp only [enter, Json.Document.grant, hargs, beq_self_eq_true, Bool.and_self, if_true]
        exact (Fills.push _ _).bind (.of_perform rfl rfl)
      · next hargs =>
        rw [Bool.not_eq_true] at hargs
        have hunknown := grant_of_isNamed_gas hgas hargs (some capability)
        exact (fills_pushUnknown list hunknown).bind (.of_perform rfl rfl)
    · next hgas =>
      rw [Bool.not_eq_true] at hgas
      rw [hgas]
      exact ih

def shownOrder (doc : Document) (capabilities : List Nat) : List Nat :=
  let gas := capabilities.find? (doc.isNamed · Capability.gas)
  gas.toList ++ capabilities.filter (gas != some ·)

def grantAll (doc : Document) (list : ItemList) : ItemList :=
  match doc.capabilityList? with
  | none => { list with items := list.items ++ [{ kind := .unrestricted }] }
  | some clist =>
    (shownOrder doc (doc.children clist)).foldl
      (enter doc ((doc.children clist).find? (doc.isNamed · Capability.gas))) list

theorem fills_pushGrants (doc : Document) (list : ItemList) :
    Fills doc.Readable (pushGrants doc) list (list.grantAll doc) () := by
  unfold pushGrants grantAll
  cases doc.capabilityList? with
  | none => exact .push _ _
  | some clist =>
    dsimp only
    rw [shownOrder, List.foldl_append]
    exact (fills_pushPayingGas doc list _).bind (fills_pushCapabilities doc _ _ _)

end ItemList

namespace Json.Document

def networkItems (doc : Document) : List Item :=
  ((doc.present? root (ascii "networkId")).map fun network =>
    { kind := .network, token := network }).toList

def signerItems (doc : Document) : List Item :=
  match doc.signerKey? with
  | none => []
  | some key =>
    [{ kind := .signerKey, token := key }] ++
      if doc.bindsKey key then [] else [{ kind := .unscopedSigner, token := key }]

def hasKeys (doc : Document) (object : Nat) (keys : List Bytes) : Bool :=
  doc.isObject object && (doc.members object).length == keys.length &&
    ((doc.members object).zip keys).all fun (member, key) => doc.isStringOf member.1 key

def chainItems (doc : Document) (info : Nat) : List Item :=
  ((doc.present? info (ascii "chainId")).map fun chain =>
    { kind := .chain, token := chain }).toList

def metaItems (doc : Document) : List Item :=
  match (doc.present? root (ascii "meta")).filter (doc.hasKeys · metaKeys) with
  | none => [{ kind := .caution }]
  | some info => doc.chainItems info ++ [{ kind := .gas, token := info }]

theorem length_pairs (is : List Nat) : (pairs is).length = is.length / 2 := by
  fun_induction pairs is with
  | case1 key value rest ih =>
    simp only [List.length_cons, ih]
    omega
  | case2 is hshort =>
    rcases is with _ | ⟨key, _ | ⟨value, rest⟩⟩
    · rfl
    · simp
    · exact absurd rfl (hshort key value rest)

theorem getElem?_pairs (is : List Nat) (n : Nat) :
    ((pairs is)[n]?).map Prod.fst = if n < is.length / 2 then is[2 * n]? else none := by
  fun_induction pairs is generalizing n with
  | case1 key value rest ih =>
    cases n with
    | zero => simp
    | succ n =>
      have htwice : 2 * (n + 1) = 2 * n + 1 + 1 := by omega
      simp only [List.getElem?_cons_succ, ih, htwice, List.length_cons]
      congr 1
      apply propext
      omega
  | case2 is hshort =>
    rcases is with _ | ⟨key, _ | ⟨value, rest⟩⟩
    · simp
    · simp
    · exact absurd rfl (hshort key value rest)

theorem all_zipIdx_eq_all_zip {members : List (Nat × Nat)} {keys : List Bytes}
    {accepts : Nat → Bytes → Bool} (hlength : members.length = keys.length) :
    (keys.zipIdx.all fun (key, n) => (members[n]?.map Prod.fst).any (accepts · key)) =
      (members.zip keys).all fun (member, key) => accepts member.1 key := by
  rw [Bool.eq_iff_iff, List.all_eq_true, List.all_eq_true]
  constructor
  · rintro h ⟨member, key⟩ hmem
    obtain ⟨n, hn⟩ := List.mem_iff_getElem?.1 hmem
    obtain ⟨hmember, hkey⟩ := List.getElem?_zip_eq_some.1 hn
    have hall := h (key, n) (List.mem_zipIdx_iff_getElem?.2 hkey)
    simpa [hmember] using hall
  · rintro h ⟨key, n⟩ hmem
    have hkey := List.mem_zipIdx_iff_getElem?.1 hmem
    obtain ⟨hbound, -⟩ := List.getElem?_eq_some_iff.1 hkey
    have hmember : members[n]? = some members[n] := List.getElem?_eq_getElem (hlength ▸ hbound)
    have hall := h (members[n], key)
      (List.mem_of_getElem? (List.getElem?_zip_eq_some.2 ⟨hmember, hkey⟩))
    simpa [hmember] using hall

theorem objectKey?_ofNat (doc : Document) (hobject : doc.isObject object) (hn : n < metaKeys.length) :
    doc.objectKey? object (Fin.ofNat UInt32.size n) = .ok (doc.children object)[2 * n]? := by
  have hlength : metaKeys.length = 6 := rfl
  have hsize : UInt32.size = 4294967296 := rfl
  have hval : (Fin.ofNat UInt32.size n).val = n := Nat.mod_eq_of_lt (by omega)
  rw [objectKey?, if_pos hobject, hval, inWord_of_lt (by omega), ok_bind]
  rfl

theorem hasMetaKeys_eq (doc : Document) (object : Nat) :
    doc.hasMetaKeys object = doc.hasKeys object metaKeys := by
  unfold hasMetaKeys hasKeys objectCount?
  cases hobject : doc.isObject object with
  | false => rfl
  | true =>
    simp only [if_true, Bool.true_and, members, length_pairs]
    cases hcount : (doc.children object).length / 2 == metaKeys.length with
    | false => simp [hcount]
    | true =>
      rw [beq_iff_eq] at hcount
      have hlength : (pairs (doc.children object)).length = metaKeys.length := by
        rw [length_pairs, hcount]
      rw [hcount, ← all_zipIdx_eq_all_zip hlength]
      simp only [beq_self_eq_true, Bool.true_and]
      rw [Bool.eq_iff_iff, List.all_eq_true, List.all_eq_true]
      apply forall₂_congr
      rintro ⟨key, n⟩ hmem
      obtain ⟨hbound, -⟩ := List.getElem?_eq_some_iff.1 (List.mem_zipIdx_iff_getElem?.1 hmem)
      dsimp only
      rw [doc.objectKey?_ofNat hobject hbound, getElem?_pairs, if_pos (by omega)]
      cases (doc.children object)[2 * n]? with
      | none => rfl
      | some name => rfl

theorem recognisedMeta?_eq (doc : Document) :
    doc.recognisedMeta? = (doc.present? root (ascii "meta")).filter (doc.hasKeys · metaKeys) := by
  rw [recognisedMeta?]
  congr
  funext object
  exact doc.hasMetaKeys_eq object

theorem lt_of_field? {doc : Document} (h : doc.field? object key = some value) :
    object < value ∧ value < doc.tokens.length := by
  unfold field? at h
  split at h
  · rw [Option.map_eq_some_iff] at h
    obtain ⟨member, hmember, rfl⟩ := h
    exact lt_of_mem_children (mem_of_mem_pairs (List.mem_of_find?_eq_some hmember)).2
  · contradiction

theorem lt_of_present? {doc : Document} (h : doc.present? object key = some value) :
    object < value ∧ value < doc.tokens.length := by
  unfold present? at h
  exact lt_of_field? (Option.filter_eq_some_iff.1 h).1

theorem lt_of_signerKey? {doc : Document} (h : doc.signerKey? = some key) :
    key < doc.tokens.length := by
  unfold signerKey? at h
  obtain ⟨signer, -, hkey⟩ := Option.bind_eq_some_iff.1 h
  exact (lt_of_present? hkey).2

end Json.Document

namespace ItemList

open Json (Document)

def tooLargeItems (items : List Item) : List Item :=
  if items.all Item.shown then [] else [{ kind := .tooLarge }]

def addressItems (device : Device) : List Item :=
  if device.showsSigner then [{ kind := .signForAddress }] else []

theorem fills_pushNetwork (doc : Document) (list : ItemList) :
    Fills readable (pushNetwork doc) list (list.extend doc.networkItems) () := by
  unfold pushNetwork Document.networkItems
  cases doc.present? Document.root (ascii "networkId") with
  | none => exact .done list
  | some network => exact .push _ list

theorem fills_pushSigner (doc : Document) (list : ItemList) :
    Fills doc.Readable (pushSigner doc) list (list.extend doc.signerItems) () := by
  unfold pushSigner Document.signerItems
  cases hkey : doc.signerKey? with
  | none => exact .done list
  | some key =>
    dsimp only
    rw [extend_append]
    apply (Fills.push _ list).bind
    apply Fills.read
    · exact List.prefix_append _ _
    · intro hread
      exact hread.exists_isScoped _ (Document.lt_of_signerKey? hkey)
    · intro bound hbound
      rw [← Document.isScoped_eq_ok hbound]
      cases bound with
      | true => exact .done _
      | false => exact .push _ _

theorem fills_pushChain (doc : Document) (info : Nat) (list : ItemList) :
    Fills readable (pushChain doc info) list (list.extend (doc.chainItems info)) () := by
  unfold pushChain Document.chainItems
  cases doc.present? info (ascii "chainId") with
  | none => exact .done list
  | some chain => exact .push _ list

theorem fills_pushMeta (doc : Document) (list : ItemList) :
    Fills readable (pushMeta doc) list (list.extend doc.metaItems) () := by
  unfold pushMeta Document.metaItems
  rw [Document.recognisedMeta?_eq]
  cases (doc.present? Document.root (ascii "meta")).filter (doc.hasKeys · metaKeys) with
  | none => exact .push _ list
  | some info =>
    dsimp only
    rw [extend_append]
    exact (fills_pushChain doc info list).bind (.push _ _)

theorem fills_pushTooLarge (list : ItemList) :
    Fills readable pushTooLarge list (list.extend (tooLargeItems list.items)) () := by
  apply (Fills.of_perform (Attempt.perform_get list) rfl).bind
  unfold tooLargeItems
  split
  · exact .done list
  · exact .push _ list

theorem fills_pushAddress (device : Device) (list : ItemList) :
    Fills readable (pushAddress device) list (list.extend (addressItems device)) () := by
  unfold pushAddress addressItems
  split
  · exact .push _ list
  · exact .done list

def digestSchedule (device : Device) : ItemList :=
  extend {} ([{ kind := .hash }] ++ addressItems device)

theorem fills_buildForDigest (device : Device) :
    Fills readable (buildForDigest device) {} (digestSchedule device) () := by
  unfold digestSchedule
  rw [extend_append]
  apply (Fills.of_perform (Attempt.perform_set {} {}) rfl).bind
  exact (Fills.push _ {}).bind (fills_pushAddress device _)

theorem buildForDigest_eq_ok {list after : ItemList}
    (h : (buildForDigest device).perform list = (.ok (), after)) : after = digestSchedule device := by
  have hfills : Fills True (buildForDigest device) {} (digestSchedule device) () :=
    fills_buildForDigest device
  exact (hfills.eq_of_ok (Nat.zero_le _) h).2

def openingItems (doc : Document) : List Item :=
  [{ kind := .signing }] ++ doc.networkItems ++ [{ kind := .requiring }] ++ doc.signerItems

def contentSchedule (doc : Document) : ItemList :=
  (grantAll doc (extend {} (openingItems doc))).extend doc.metaItems

def schedule (device : Device) (doc : Document) : ItemList :=
  (contentSchedule doc).extend
    (tooLargeItems (contentSchedule doc).items ++ [{ kind := .hash }] ++ addressItems device)

theorem fills_build (device : Device) (doc : Document) :
    Fills doc.Readable (build device doc) {} (schedule device doc) () := by
  simp only [schedule, contentSchedule, openingItems, extend_append]
  apply (Fills.of_perform (Attempt.perform_set {} ({} : ItemList)) rfl).bind
  apply (Fills.push _ {}).bind
  apply (fills_pushNetwork doc _).bind
  apply (Fills.push _ _).bind
  apply (fills_pushSigner doc _).bind
  apply (fills_pushGrants doc _).bind
  apply (fills_pushMeta doc _).bind
  apply (fills_pushTooLarge _).bind
  apply (Fills.push _ _).bind
  exact fills_pushAddress device _

theorem build_eq_ok {list after : ItemList}
    (h : (build device doc).perform list = (.ok (), after)) : after = schedule device doc :=
  ((fills_build device doc).eq_of_ok (Nat.zero_le _) h).2

end ItemList

end ClearSign
