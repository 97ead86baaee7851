import FastGoZero.Hash.RingLookup
import FastGoZero.Lib.CircularSuccessor

/-!
# Where a value is placed

The book of a run says which node was last added under each text, and with how many labels. If the
labels of all nodes that were ever added have different hashes, the ring is a picture of the book:
a value goes to the owner of the next label on the circle. So the order of the calls does not
matter, a node that is added takes values and a node that is removed gives up its own, and no
value moves between other nodes.
-/

namespace FastGoZero.Hash.ConsistentHash

open Lib List Option

universe u
variable {α : Type u} [Printable α]

/-- The call's entry: the node with the number of labels that it is granted. -/
def Call.enter (limit : Int64) (entries : Str → Option (α × Nat)) (call : Call α) :
    Str → Option (α × Nat) :=
  fun nodeRepr =>
    if nodeRepr = Printable.repr call.node then
      (call.grants limit).map fun count => (call.node, count)
    else entries nodeRepr

def book (limit : Int64) (calls : List (Call α)) : Str → Option (α × Nat) :=
  calls.foldl (Call.enter limit) fun _ => none

/-- The ledger that belongs to a book. -/
def countsOf (entries : Str → Option (α × Nat)) : Str → Option Nat :=
  fun nodeRepr => (entries nodeRepr).map Prod.snd

variable (limit : Int64)

theorem countsOf_enter (entries : Str → Option (α × Nat)) (call : Call α) :
    countsOf (call.enter limit entries) = call.record limit (countsOf entries) := by
  funext nodeRepr
  unfold countsOf Call.enter Call.record
  split
  · cases call.grants limit <;> rfl
  · rfl

def EverAdded (limit : Int64) (calls : List (Call α)) (nodeRepr : Str) : Prop :=
  ∃ call ∈ calls, call.grants limit ≠ none ∧ Printable.repr call.node = nodeRepr

/-- All labels that nodes with these texts can have hash differently. -/
def DistinctLabels (h : ConsistentHash α) (names : Str → Prop) : Prop :=
  ∀ a b, names a → names b → ∀ i < passes h.replicas, ∀ j < passes h.replicas,
    h.label a i = h.label b j → a = b ∧ i = j

variable (label : Str → Nat → UInt64) (entries : Str → Option (α × Nat))

/-- The node has a label with this hash. -/
def Owner (hash : UInt64) (node : α) : Prop :=
  ∃ nodeRepr count i, entries nodeRepr = some (node, count) ∧ i < count ∧ label nodeRepr i = hash

def Registered (hash : UInt64) : Prop :=
  ∃ node, Owner label entries hash node

/-- What a lookup should return: the owner of the next label, nothing if there is no label. -/
def Placement (probe : UInt64) : Option α → Prop
  | none => ∀ hash, ¬ Registered label entries hash
  | some node => ∃ hash, Successor (Registered label entries) probe hash ∧
      Owner label entries hash node

/-- The entries of a book: each node stands under its text, which was added, and has no more labels
than the limit. -/
structure Sheet (names : Str → Prop) (limit : Int64)
    (entries : Str → Option (α × Nat)) : Prop where
  named : ∀ nodeRepr entry, entries nodeRepr = some entry → names nodeRepr
  text : ∀ nodeRepr entry, entries nodeRepr = some entry → Printable.repr entry.1 = nodeRepr
  bounded : ∀ nodeRepr entry, entries nodeRepr = some entry → entry.2 ≤ passes limit

variable {names : Str → Prop} {entries : Str → Option (α × Nat)}
  {start h : ConsistentHash α} {hash : UInt64}

theorem Owner.unique (distinct : DistinctLabels start names)
    (sheet : Sheet names start.replicas entries) {node other : α}
    (first : Owner start.label entries hash node) (second : Owner start.label entries hash other) :
    node = other := by
  obtain ⟨a, countA, i, entryA, insideA, rfl⟩ := first
  obtain ⟨b, countB, j, entryB, insideB, same⟩ := second
  obtain ⟨rfl, -⟩ := distinct b a (sheet.named b _ entryB) (sheet.named a _ entryA) j
    (Nat.lt_of_lt_of_le insideB (sheet.bounded b _ entryB)) i
    (Nat.lt_of_lt_of_le insideA (sheet.bounded a _ entryA)) same
  cases entryA.symm.trans entryB
  rfl

theorem Placement.unique (distinct : DistinctLabels start names)
    (sheet : Sheet names start.replicas entries) {probe : UInt64} {result other : Option α}
    (first : Placement start.label entries probe result)
    (second : Placement start.label entries probe other) : result = other := by
  cases result with
  | none =>
    cases other with
    | none => rfl
    | some node =>
      obtain ⟨hash, -, owner⟩ := second
      exact absurd ⟨node, owner⟩ (first hash)
  | some node =>
    obtain ⟨hash, successor, owner⟩ := first
    cases other with
    | none => exact absurd ⟨node, owner⟩ (second hash)
    | some rival =>
      obtain ⟨another, successorToo, ownerToo⟩ := second
      obtain rfl := successor.unique successorToo
      rw [owner.unique distinct sheet ownerToo]

/-- The ring after some calls on the ring at the start. -/
structure Pictures (start : ConsistentHash α) (names : Str → Prop)
    (entries : Str → Option (α × Nat)) (h : ConsistentHash α) : Prop where
  hashFunc : h.hashFunc = start.hashFunc
  replicas : h.replicas = start.replicas
  sheet : Sheet names start.replicas entries
  integral : h.Integral
  accounts : Accounts (countsOf entries) h
  values : ∀ hash, ∀ x ∈ h.nodesAt hash, (entries (Printable.repr x)).map Prod.fst = some x

namespace Pictures

section

variable (pictures : Pictures start names entries h)

include pictures

theorem label_eq : h.label = start.label := by
  funext nodeRepr i
  rw [label, label, pictures.hashFunc]

/-- A node in the ring is there for one of its labels. -/
theorem owner_of_mem {x : α} (mem : x ∈ h.nodesAt hash) : Owner start.label entries hash x := by
  obtain ⟨⟨node, count⟩, entry, same⟩ := map_eq_some_iff.mp (pictures.values hash x mem)
  obtain rfl : x = node := same.symm
  have shared : 0 < h.share (Printable.repr x) hash :=
    countP_pos_iff.mpr ⟨x, mem, by simp⟩
  have granted : countsOf entries (Printable.repr x) = some count := by rw [countsOf, entry]; rfl
  rw [pictures.accounts.entries, granted, getD_some, count_pos_iff] at shared
  obtain ⟨i, listed, same⟩ := mem_map.mp shared
  refine ⟨Printable.repr x, count, i, entry, mem_range.mp listed, ?_⟩
  rw [← same, pictures.label_eq]

section

variable (distinct : DistinctLabels start names)

include distinct

theorem firstLabels_nodup {nodeRepr : Str} (named : names nodeRepr) {count : Nat}
    (bounded : count ≤ passes start.replicas) : (h.firstLabels nodeRepr count).Nodup := by
  refine Nodup.map_on ?_ nodup_range
  intro i listed j listedToo same
  rw [pictures.label_eq] at same
  have small := mem_range.mp listed
  have smallToo := mem_range.mp listedToo
  exact (distinct nodeRepr nodeRepr named named i (by omega) j (by omega) same).2

theorem nodesAt_of_owner {node : α} (owner : Owner start.label entries hash node) :
    h.nodesAt hash = [node] := by
  have only : ∀ x ∈ h.nodesAt hash, x = node := by
    intro x mem
    exact (pictures.owner_of_mem mem).unique distinct pictures.sheet owner
  obtain ⟨nodeRepr, count, i, entry, inside, same⟩ := owner
  have granted : countsOf entries nodeRepr = some count := by rw [countsOf, entry]; rfl
  have counted := pictures.accounts.entries nodeRepr hash
  have mem : hash ∈ h.firstLabels nodeRepr count :=
    mem_map.mpr ⟨i, mem_range.mpr inside, by rw [← same, pictures.label_eq]⟩
  rw [granted, getD_some, count_eq_one_of_mem (pictures.firstLabels_nodup distinct
    (pictures.sheet.named _ _ entry) (pictures.sheet.bounded _ _ entry)) mem, share] at counted
  have all : ∀ x ∈ h.nodesAt hash, decide (Printable.repr x = nodeRepr) = true := by
    intro x inRing
    rw [only x inRing, decide_eq_true_eq]
    exact pictures.sheet.text _ _ entry
  rw [countP_eq_length.mpr all] at counted
  obtain ⟨x, single⟩ := length_eq_one_iff.mp counted
  rw [single, only x (by simp [single])]

theorem registered_iff (hash : UInt64) : Registered start.label entries hash ↔ hash ∈ h.keys := by
  rw [pictures.integral.mem_keys_iff]
  constructor
  · rintro ⟨node, owner⟩
    simp [pictures.nodesAt_of_owner distinct owner]
  · intro filled
    obtain ⟨x, mem⟩ := exists_mem_of_ne_nil _ filled
    exact ⟨x, pictures.owner_of_mem mem⟩

theorem owned (call : Call α) : call.Owned h := by
  intro contained hash labelled
  rw [pictures.accounts.registered, isSome_iff_exists] at contained
  obtain ⟨count, granted⟩ := contained
  obtain ⟨entry, entered, -⟩ := map_eq_some_iff.mp granted
  have named := pictures.sheet.named _ _ entered
  have once : (h.labels (Printable.repr call.node)).count hash = 1 :=
    count_eq_one_of_mem (pictures.firstLabels_nodup distinct named
      (Nat.le_of_eq (congrArg passes pictures.replicas))) labelled
  rw [once]
  cases nodes : h.nodesAt hash with
  | nil => simp [share, nodes]
  | cons x rest =>
    have owner : Owner start.label entries hash x := pictures.owner_of_mem (by simp [nodes])
    have alone := pictures.nodesAt_of_owner distinct owner
    obtain ⟨j, listed, label⟩ := mem_map.mp labelled
    obtain ⟨other, count, i, entry, inside, same⟩ := owner
    have small := mem_range.mp listed
    rw [pictures.replicas] at small
    rw [pictures.label_eq] at label
    obtain ⟨rfl, -⟩ := distinct other _ (pictures.sheet.named _ _ entry) named i
      (Nat.lt_of_lt_of_le inside (pictures.sheet.bounded _ _ entry)) j small
      (same.trans label.symm)
    rw [nodes] at alone
    rw [alone, share, nodes, alone]
    simp [pictures.sheet.text _ _ entry]

end

end

variable {ledger : Str → Option Nat}

theorem mem_nodesAt_remove (accounts : Accounts ledger h) (node : α) {x : α}
    (mem : x ∈ (h.remove node).nodesAt hash) :
    x ∈ h.nodesAt hash ∧ Printable.repr x ≠ Printable.repr node := by
  constructor
  · cases contained : h.containsNode (Printable.repr node) with
    | false => rwa [remove_absent contained] at mem
    | true =>
      obtain ⟨after, removed, result⟩ := remove_removed accounts.ordered node contained
      have entry : (h.remove node).nodesAt hash = after.nodesAt hash := by rw [result]; rfl
      rw [entry, removed.nodesAt] at mem
      split at mem
      · exact (mem_filter.mp mem).1
      · exact mem
  · intro own
    have none := share_remove accounts node (Printable.repr node) hash
    rw [if_pos rfl, share, countP_eq_zero] at none
    exact none x mem (decide_eq_true own)

theorem mem_nodesAt_step (accounts : Accounts ledger h) (call : Call α) {x : α}
    (mem : x ∈ (h.step call).1.nodesAt hash) : (x = call.node ∧ call.grants h.replicas ≠ none) ∨
      (x ∈ h.nodesAt hash ∧ Printable.repr x ≠ Printable.repr call.node) := by
  rcases step_spec accounts.ordered call with
    ⟨-, result⟩ | ⟨count, after, granted, added, result⟩
  · rw [result] at mem
    exact Or.inr (mem_nodesAt_remove accounts call.node mem)
  · rw [result] at mem
    have grown : x ∈ after.nodesAt hash := mem
    rw [added.nodesAt, mem_append] at grown
    rcases grown with old | new
    · exact Or.inr (mem_nodesAt_remove accounts call.node old)
    · exact Or.inl ⟨(mem_replicate.mp new).2, by simp [granted]⟩

theorem sheet_enter {limit : Int64} (sheet : Sheet names limit entries) (call : Call α)
    (named : call.grants limit ≠ none → names (Printable.repr call.node)) :
    Sheet names limit (call.enter limit entries) := by
  have entered : ∀ nodeRepr entry, call.enter limit entries nodeRepr = some entry →
      names nodeRepr ∧ Printable.repr entry.1 = nodeRepr ∧ entry.2 ≤ passes limit := by
    intro nodeRepr entry present
    unfold Call.enter at present
    split_ifs at present with own
    · obtain ⟨count, granted, rfl⟩ := map_eq_some_iff.mp present
      exact ⟨own ▸ named (by simp [granted]), own.symm, call.grants_le limit granted⟩
    · exact ⟨sheet.named _ _ present, sheet.text _ _ present, sheet.bounded _ _ present⟩
  exact ⟨fun _ _ present => (entered _ _ present).1, fun _ _ present => (entered _ _ present).2.1,
    fun _ _ present => (entered _ _ present).2.2⟩

theorem step (pictures : Pictures start names entries h) (distinct : DistinctLabels start names)
    (call : Call α)
    (named : call.grants start.replicas ≠ none → names (Printable.repr call.node)) :
    Pictures start names (call.enter start.replicas entries) (h.step call).1 where
  hashFunc := (step_frame pictures.accounts.ordered call).1.trans pictures.hashFunc
  replicas := (step_frame pictures.accounts.ordered call).2.trans pictures.replicas
  sheet := sheet_enter pictures.sheet call named
  integral := (step_integral_iff pictures.integral call).mpr (pictures.owned distinct call)
  accounts := by
    rw [countsOf_enter, ← pictures.replicas]
    exact step_accounts pictures.accounts call
  values := by
    intro hash x mem
    rcases mem_nodesAt_step pictures.accounts call mem with ⟨rfl, granted⟩ | ⟨old, other⟩
    · rw [pictures.replicas] at granted
      obtain ⟨count, grants⟩ := ne_none_iff_exists'.mp granted
      rw [Call.enter, if_pos rfl, grants]
      rfl
    · rw [Call.enter, if_neg other]
      exact pictures.values hash x old

theorem run (calls : List (Call α)) (distinct : DistinctLabels start names)
    (named : ∀ nodeRepr, EverAdded start.replicas calls nodeRepr → names nodeRepr)
    (pictures : Pictures start names entries h) :
    Pictures start names (calls.foldl (Call.enter start.replicas) entries) (h.run calls) := by
  induction calls generalizing entries h with
  | nil => exact pictures
  | cons call rest ih =>
    have now := pictures.step distinct call
      fun granted => named _ ⟨call, mem_cons_self, granted, rfl⟩
    refine ih ?_ now
    rintro nodeRepr ⟨later, mem, granted, same⟩
    exact named nodeRepr ⟨later, mem_cons_of_mem _ mem, granted, same⟩

theorem get (pictures : Pictures start names entries h) (distinct : DistinctLabels start names)
    (v : α) : ∃ result, h.get v = .ok result ∧
      Placement start.label entries (start.hashFunc (Printable.repr v)) result := by
  by_cases empty : h.ring.len = 0
  · refine ⟨none, if_pos empty, ?_⟩
    rintro hash ⟨node, owner⟩
    have alone := pictures.nodesAt_of_owner distinct owner
    simp [nodesAt, (ring_empty_iff h).mp empty hash] at alone
  · have keyed := pictures.integral.keys_pos empty
    have successor := successor_lowerBound pictures.integral.sorted keyed
      (h.hashFunc (Printable.repr v)) 0
    have registered : (· ∈ h.keys) = Registered start.label entries := by
      funext hash
      exact propext (pictures.registered_iff distinct hash).symm
    rw [registered] at successor
    obtain ⟨node, owner⟩ := successor.mem
    refine ⟨some node, ?_, _, pictures.hashFunc ▸ successor, owner⟩
    rw [ConsistentHash.get, if_neg empty, if_neg (Nat.ne_of_gt keyed)]
    simp only [pictures.nodesAt_of_owner distinct owner]

end Pictures

theorem new_pictures (hash : Str → UInt64) (replicas : Int64)
    (fn : Option (Str → UInt64)) (names : Str → Prop) :
    let new : ConsistentHash α := newCustomConsistentHash hash replicas fn
    Pictures new names (fun _ => none) new where
  hashFunc := rfl
  replicas := rfl
  sheet := by constructor <;> simp
  integral := new_integral hash replicas fn
  accounts := new_accounts hash replicas fn
  values _ x mem := by cases mem

section

variable {more : Str → Option (α × Nat)} {label : Str → Nat → UInt64} {own : Str}

omit [Printable α]

/-- The books agree but for one text, under which the one has all the labels of the other. -/
structure Extends (own : Str) (entries more : Str → Option (α × Nat)) : Prop where
  others : ∀ nodeRepr, nodeRepr ≠ own → more nodeRepr = entries nodeRepr
  grows : ∀ former, entries own = some former → ∃ entry, more own = some entry ∧ former.2 ≤ entry.2

theorem Extends.registered (extended : Extends own entries more) {hash : UInt64}
    (registered : Registered label entries hash) : Registered label more hash := by
  obtain ⟨node, nodeRepr, count, i, entry, inside, same⟩ := registered
  by_cases isOwn : nodeRepr = own
  · subst isOwn
    obtain ⟨⟨other, granted⟩, now, enough⟩ := extended.grows _ entry
    exact ⟨other, nodeRepr, granted, i, now, Nat.lt_of_lt_of_le inside enough, same⟩
  · exact ⟨node, nodeRepr, count, i, (extended.others _ isOwn).trans entry, inside, same⟩

theorem Extends.owner (extended : Extends own entries more) {hash : UInt64} {node : α}
    (owner : Owner label more hash node) :
    (∃ count, more own = some (node, count)) ∨ Owner label entries hash node := by
  obtain ⟨nodeRepr, count, i, entry, inside, same⟩ := owner
  by_cases isOwn : nodeRepr = own
  · exact Or.inl ⟨count, isOwn ▸ entry⟩
  · exact Or.inr ⟨nodeRepr, count, i, (extended.others _ isOwn).symm.trans entry, inside, same⟩

/-- What is placed by the larger book is placed there by the smaller one, or on the one node. -/
theorem Extends.placement_of_more (extended : Extends own entries more) {probe : UInt64}
    {result : Option α} (placed : Placement label more probe result) :
    (∃ node count, result = some node ∧ more own = some (node, count)) ∨
      Placement label entries probe result := by
  cases result with
  | none => exact Or.inr fun hash registered => placed hash (extended.registered registered)
  | some node =>
    obtain ⟨hash, successor, owner⟩ := placed
    rcases extended.owner owner with ⟨count, taken⟩ | kept
    · exact Or.inl ⟨node, count, rfl, taken⟩
    · exact Or.inr ⟨hash, successor.of_subset (fun _ => extended.registered) ⟨node, kept⟩, kept⟩

end

theorem enter_extends {limit : Int64} (call : Call α) {count : Nat}
    (granted : call.grants limit = some count)
    (grows : ∀ former, entries (Printable.repr call.node) = some former → former.2 ≤ count) :
    Extends (Printable.repr call.node) entries (call.enter limit entries) where
  others nodeRepr other := if_neg other
  grows former present := by
    refine ⟨(call.node, count), ?_, grows former present⟩
    rw [Call.enter, if_pos rfl, granted]
    rfl

theorem remove_extends (node : α) :
    Extends (Printable.repr node) ((Call.remove node).enter limit entries) entries where
  others nodeRepr other := (if_neg other).symm
  grows former present := by
    rw [Call.enter, Call.node, if_pos rfl] at present
    cases present

theorem book_concat (calls : List (Call α)) (call : Call α) :
    book limit (calls ++ [call]) = call.enter limit (book limit calls) := by
  rw [book, foldl_append]
  rfl

/-- If all labels of all nodes that a run adds hash differently, a lookup after the run returns the
owner of the next registered label. So it depends on the book of the run only; a call that gives a
node more labels moves values to that node only; and a removal moves only what was on the node. -/
theorem consistent_placement (hash : Str → UInt64) (replicas : Int64)
    (fn : Option (Str → UInt64)) (calls : List (Call α)) :
    let new : ConsistentHash α := newCustomConsistentHash hash replicas fn
    let limit := new.replicas
    DistinctLabels new (EverAdded limit calls) →
      (∀ v, ∃ result, (new.run calls).get v = .ok result ∧
        Placement new.label (book limit calls) (new.hashFunc (Printable.repr v)) result) ∧
      (∀ others, DistinctLabels new (EverAdded limit others) →
        book limit others = book limit calls → ∀ v, (new.run others).get v = (new.run calls).get v) ∧
      (∀ call count, call.grants limit = some count →
        DistinctLabels new (EverAdded limit (calls ++ [call])) →
        (∀ former, book limit calls (Printable.repr call.node) = some former → former.2 ≤ count) →
        ∀ v, (new.run (calls ++ [call])).get v = (new.run calls).get v ∨
          (new.run (calls ++ [call])).get v = .ok (some call.node)) ∧
      ∀ node v, (∀ x, (new.run calls).get v = .ok (some x) →
          Printable.repr x ≠ Printable.repr node) →
        (new.run (calls ++ [.remove node])).get v = (new.run calls).get v := by
  intro new limit distinct
  have pictures : ∀ others, DistinctLabels new (EverAdded limit others) →
      Pictures new (EverAdded limit others) (book limit others) (new.run others) := by
    intro others distinctOthers
    exact (new_pictures hash replicas fn _).run others distinctOthers fun _ added => added
  have now := pictures calls distinct
  refine ⟨now.get distinct, ?_, ?_, ?_⟩
  · intro others distinctOthers sameBook v
    obtain ⟨result, found, placed⟩ := now.get distinct v
    obtain ⟨other, foundOther, placedOther⟩ := (pictures others distinctOthers).get distinctOthers v
    rw [sameBook] at placedOther
    rw [found, foundOther, placed.unique distinct now.sheet placedOther]
  · intro call count granted distinctMore grows v
    obtain ⟨result, found, placed⟩ := now.get distinct v
    obtain ⟨later, foundLater, placedLater⟩ := (pictures _ distinctMore).get distinctMore v
    rw [book_concat] at placedLater
    rcases (enter_extends call granted grows).placement_of_more placedLater with
      ⟨node, labels, rfl, taken⟩ | kept
    · right
      rw [Call.enter, if_pos rfl, granted] at taken
      cases taken
      exact foundLater
    · left
      rw [found, foundLater, kept.unique distinct now.sheet placed]
  · intro node v elsewhere
    have sameNames : ∀ nodeRepr, EverAdded limit (calls ++ [.remove node]) nodeRepr →
        EverAdded limit calls nodeRepr := by
      rintro nodeRepr ⟨call, mem, granted, same⟩
      rcases mem_append.mp mem with early | last
      · exact ⟨call, early, granted, same⟩
      · obtain rfl := mem_singleton.mp last
        exact absurd rfl granted
    have distinctLater : DistinctLabels new (EverAdded limit (calls ++ [.remove node])) :=
      fun a b addedA addedB => distinct a b (sameNames a addedA) (sameNames b addedB)
    have after := pictures _ distinctLater
    obtain ⟨result, found, placed⟩ := now.get distinct v
    obtain ⟨later, foundLater, placedLater⟩ := after.get distinctLater v
    rcases (remove_extends limit node).placement_of_more placed with
      ⟨x, labels, rfl, taken⟩ | kept
    · exact absurd (now.sheet.text _ _ taken) (elsewhere x found)
    · rw [← book_concat] at kept
      rw [found, foundLater, kept.unique distinctLater after.sheet placedLater]

/-- The bytes of a text as the digits of a number. -/
def byteSum (text : Str) : UInt64 := text.foldl (fun sum b => sum * 256 + b.toUInt64) 0

/-- The node of one byte and the index below a hundred that a number was made from. -/
def readLabel (hash : UInt64) : Str × Nat :=
  if hash < 65536 then ([(hash / 256).toUInt8], (hash % 256).toNat - 48)
  else ([(hash / 65536).toUInt8], ((hash / 256 % 256).toNat - 48) * 10 + ((hash % 256).toNat - 48))

/-- One of two nodes is given fewer labels, the other one comes and goes. -/
theorem consistent_placement_pair :
    ((newCustomConsistentHash byteSum 0 none : ConsistentHash Str).run
      [.add [97], .add [98], .addWithReplicas [97] 3, .remove [98]]).get [98] =
      ((newCustomConsistentHash byteSum 0 none : ConsistentHash Str).run
        [.add [98], .remove [98], .addWithReplicas [97] 3]).get [98] := by
  have readBack : ∀ a ∈ ([[97], [98]] : List Str), ∀ i < 100,
      readLabel (byteSum (a ++ itoa i)) = (a, i) := by
    decide +kernel
  have distinct : ∀ calls : List (Call Str),
      (∀ call ∈ calls, call.node ∈ ([[97], [98]] : List Str)) →
      DistinctLabels (newCustomConsistentHash byteSum 0 none : ConsistentHash Str)
        (EverAdded minReplicas calls) := by
    rintro calls nodes a b ⟨callA, memberA, -, rfl⟩ ⟨callB, memberB, -, rfl⟩ i smallI j smallJ same
    have back := congrArg readLabel same
    rw [label, label] at back
    have first := readBack _ (nodes callA memberA) i smallI
    have second := readBack _ (nodes callB memberB) j smallJ
    exact Prod.mk.inj (first.symm.trans (back.trans second))
  refine (consistent_placement byteSum 0 none _ (distinct _ (by decide))).2.1 _
    (distinct _ (by decide)) ?_ [98]
  funext nodeRepr
  by_cases isFirst : nodeRepr = [97]
  · subst isFirst
    rfl
  · by_cases isSecond : nodeRepr = [98]
    · subst isSecond
      rfl
    · simp [book, Call.enter, Call.node, Printable.repr, isFirst, isSecond]

end FastGoZero.Hash.ConsistentHash
