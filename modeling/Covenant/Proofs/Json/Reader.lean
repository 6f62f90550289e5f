import Covenant.Json.Reader
import Covenant.Proofs.Data.Except
import Covenant.Proofs.Json.Parse
import Covenant.Proofs.Text.Utf8

namespace Covenant.Json

theorem depth_tagged (name : String) (j : Json) : (tagged name j).depth = j.depth + 1 := by
  simp [tagged, depth, membersDepth]

theorem membersDepth_le {members : List (String × Json)} {n : Nat}
    (h : ∀ m ∈ members, m.2.depth ≤ n) : membersDepth members ≤ n := by
  induction members with
  | nil => exact Nat.zero_le n
  | cons member rest ih =>
      rw [List.forall_mem_cons] at h
      exact max_le h.1 (ih h.2)

namespace Reader

variable {α β : Type} {depth limit m n : Nat} {a : α} {b : β} {reader : Reader α} {j : Json}

-- A value with so many containers nested in each other, where so many may be open.
def within (depth nested : Nat) (a : α) : Result α :=
  if nested ≤ depth then .ok a else stop .malformed

-- The reader finds the value in what is written for it. Only nesting makes that fail. It is known
-- where less than `limit` containers may be open.
def Reads (reader : Reader α) (limit : Nat) (j : Json) (a : α) : Prop :=
  ∀ depth < limit, reader depth j.toTree = within depth j.depth a

theorem within_map (f : α → β) : (within depth n a).map f = within depth n (f a) := by
  unfold within
  split <;> rfl

theorem within_bind {f : α → Result β} (h : f a = within depth m b) :
    (within depth n a >>= f) = within depth (max n m) b := by
  by_cases hn : n ≤ depth
  · have hok : within depth n a = .ok a := if_pos hn
    rw [hok]
    exact h.trans (by simp [within, hn])
  · simp only [within, max_le_iff, hn, if_false, false_and]
    rfl

theorem within_close : (within depth n a >>= close none) = within depth n a := by
  unfold within
  split <;> rfl

theorem enter_within {inside : Nat → Result α}
    (h : ∀ less, depth = less + 1 → inside less = within less n a) :
    enter depth inside = within depth (n + 1) a := by
  cases depth with
  | zero => rfl
  | succ less =>
      rw [enter, h less rfl]
      simp [within]

theorem within_eq_ok : within depth n a = .ok a ↔ n ≤ depth := by
  unfold within
  split_ifs with h
  · exact iff_of_true rfl h
  · exact iff_of_false (by simp [stop]) h

-- Only an integer is read as a number.
theorem natBelow_error {t : Tree} (h : ∀ k, t ≠ .int k) (bound depth : Nat) :
    ∃ e, natBelow bound depth t = .error e := by
  have hunexpected : ∀ t : Tree, ∃ e, (unexpected t : Result Int) = .error e := by
    intro t
    unfold unexpected
    split <;> exact ⟨_, rfl⟩
  obtain ⟨e, he⟩ := hunexpected t
  refine ⟨e, ?_⟩
  have hinteger : integer 0 (bound - 1) depth t = unexpected t := by
    cases t with
    | int k => exact absurd rfl (h k)
    | _ => rfl
  rw [natBelow, map, hinteger, he]
  rfl

namespace Reads

theorem mono (h : Reads reader limit j a) (hm : m ≤ limit) : Reads reader m j a := by
  intro depth hdepth
  exact h depth (by omega)

theorem map (f : α → β) (h : Reads reader limit j a) :
    Reads (Reader.map f reader) limit j (f a) := by
  intro depth hdepth
  rw [Reader.map, h depth hdepth, within_map]

theorem bool (b : Bool) : Reads Reader.bool limit (.bool b) b := fun _ _ => rfl

theorem string (s : String) : Reads Reader.string limit (.str s) s := fun _ _ => rfl

theorem integer {low high k : Int} (h : low ≤ k ∧ k ≤ high) :
    Reads (Reader.integer low high) limit (.int k) k := by
  intro depth _
  simp [toTree, Reader.integer, h, Json.depth, within]

theorem natBelow {bound k : Nat} (h : k < bound) :
    Reads (Reader.natBelow bound) limit (.nat k) k := by
  have hk : (0 : Int) ≤ k ∧ (k : Int) ≤ bound - 1 := by omega
  exact (integer hk).map Int.toNat

theorem int64 (k : Int64) : Reads Reader.int64 limit (.int k.toInt) k := by
  have hlow := Int64.le_toInt k
  have hhigh := Int64.toInt_lt k
  have hk : -0x8000000000000000 ≤ k.toInt ∧ k.toInt ≤ 0x7FFFFFFFFFFFFFFF := by omega
  intro depth hdepth
  have h := (integer hk).map Int64.ofInt depth hdepth
  rwa [Int64.ofInt_toInt] at h

theorem items {js : List Json} {as : List α} (h : List.Forall₂ (Reads reader limit) js as)
    (hdepth : depth < limit) :
    Reader.items reader depth (itemTrees js) = within depth (itemsDepth js) as := by
  induction h with
  | nil => rfl
  | cons hone hrest ih =>
      rw [itemTrees, Reader.items, hone depth hdepth, itemsDepth]
      apply within_bind
      rw [ih]
      exact within_map _

theorem list {js : List Json} {as : List α} (h : List.Forall₂ (Reads reader limit) js as) :
    Reads (Reader.list reader) (limit + 1) (.arr js) as := by
  intro depth hdepth
  rw [toTree, Reader.list]
  apply enter_within
  intro less hless
  rw [items h (by omega)]
  exact within_close

theorem entries {members : List (String × Json)} {entries : List (String × α)}
    (h : List.Forall₂ (fun m e => m.1 = e.1 ∧ Reads reader limit m.2 e.2) members entries)
    (hdepth : depth < limit) :
    Reader.entries reader depth (memberTrees members) = within depth (membersDepth members) entries := by
  induction h with
  | nil => rfl
  | @cons member entry members entries hone hrest ih =>
      obtain ⟨name, value⟩ := member
      obtain ⟨rfl, hvalue⟩ := hone
      rw [memberTrees, Reader.entries, membersDepth]
      change (reader depth value.toTree >>= _) = _
      rw [hvalue depth hdepth]
      apply within_bind
      rw [ih]
      exact within_map _

theorem dictionary {members : List (String × Json)} {entries : List (String × α)}
    (h : List.Forall₂ (fun m e => m.1 = e.1 ∧ Reads reader limit m.2 e.2) members entries) :
    Reads (Reader.dictionary reader) (limit + 1) (.obj members) entries := by
  intro depth hdepth
  rw [toTree, Reader.dictionary]
  apply enter_within
  intro less hless
  rw [Reads.entries h (by omega)]
  exact within_close

-- A variant by its name alone.
theorem unit {variants : List (Variant α)} {name : String}
    (hfind : find variants name = .ok (.unit name a)) :
    Reads (Reader.choice variants) limit (.str name) a := by
  intro depth _
  rw [toTree, Reader.choice, hfind]
  rfl

-- A variant with what is written for its content.
theorem content {variants : List (Variant α)} {name : String}
    (hfind : find variants name = .ok (.content name reader)) (h : Reads reader limit j a) :
    Reads (Reader.choice variants) (limit + 1) (.tagged name j) a := by
  intro depth hdepth
  rw [depth_tagged, tagged, toTree, memberTrees, memberTrees, Reader.choice]
  apply enter_within
  intro less hless
  change (find variants name >>= fun variant => Reader.content less j.toTree variant >>= close none) = _
  rw [hfind]
  change (reader less j.toTree >>= close none) = _
  rw [h less (by omega)]
  exact within_close

end Reads

end Reader

namespace Fields

open Reader

variable {αs : List Type} {depth limit : Nat}

-- The members that are written for the fields of a record, each under its own name.
inductive Written (limit : Nat) : {αs : List Type} → Fields αs → List (String × Json) → Row αs → Prop
  | nil : Written limit .nil [] ()
  | cons {α : Type} {αs : List Type} {field : Field α} {rest : Fields αs} {value : Json} {a : α}
      {members : List (String × Json)} {row : Row αs} (hvalue : Reads field.reader limit value a)
      (hnames : ∀ m ∈ members, m.1 ≠ field.name) (hrest : Written limit rest members row) :
      Written limit (.cons field rest) ((field.name, value) :: members) (a, row)

-- The items that are written for the parts of a tuple.
inductive Listed (limit : Nat) : {αs : List Type} → Fields αs → List Json → Row αs → Prop
  | nil : Listed limit .nil [] ()
  | cons {α : Type} {αs : List Type} {field : Field α} {rest : Fields αs} {item : Json} {a : α}
      {items : List Json} {row : Row αs} (hitem : Reads field.reader limit item a)
      (hrest : Listed limit rest items row) :
      Listed limit (.cons field rest) (item :: items) (a, row)

-- The slots when all fields are read.
def fullSlots : {αs : List Type} → Row αs → Slots αs
  | [], () => ()
  | _ :: _, (a, row) => (some a, fullSlots row)

theorem finish_fullSlots (fields : Fields αs) (row : Row αs) :
    fields.finish (fullSlots row) = .ok row := by
  induction fields with
  | nil => rfl
  | cons field rest ih =>
      obtain ⟨a, row⟩ := row
      simp only [fullSlots, finish, Option.some_or, ih]
      rfl

theorem fill_self {α : Type} (field : Field α) (rest : Fields αs) (slots : Slots αs) (t : Tree) :
    (Fields.cons field rest).fill depth field.name t (none, slots) =
      (field.reader depth t).map fun a => (some a, slots) := if_pos rfl

theorem fill_of_ne {α : Type} (field : Field α) (rest : Fields αs) (slot : Option α)
    (slots : Slots αs) (t : Tree) {name : String} (h : name ≠ field.name) :
    (Fields.cons field rest).fill depth name t (slot, slots) =
      (rest.fill depth name t slots).map fun slots => (slot, slots) := if_neg (Ne.symm h)

-- Members under other names do not touch the slot of a field.
theorem fillAll_cons {α : Type} (field : Field α) (rest : Fields αs) (slot : Option α)
    (slots : Slots αs) (members : List (String × Json)) (h : ∀ m ∈ members, m.1 ≠ field.name) :
    (Fields.cons field rest).fillAll depth (memberTrees members) (slot, slots) =
      (rest.fillAll depth (memberTrees members) slots).map fun slots => (slot, slots) := by
  induction members generalizing slots with
  | nil => rfl
  | cons member members ih =>
      obtain ⟨name, value⟩ := member
      rw [List.forall_mem_cons] at h
      change ((Fields.cons field rest).fill depth name value.toTree (slot, slots) >>= fun filled =>
        (Fields.cons field rest).fillAll depth (memberTrees members) filled) =
        (rest.fill depth name value.toTree slots >>= fun filled =>
          rest.fillAll depth (memberTrees members) filled).map _
      rw [fill_of_ne field rest slot slots _ h.1]
      cases rest.fill depth name value.toTree slots with
      | error e => rfl
      | ok filled => exact ih filled h.2

-- A record whose first member cannot be read.
theorem record_of_error {α : Type} {αs : List Type} {depth : Nat} {t : Tree} {e : ReadError}
    {members : List (Key × Tree)} {ending : Option Fault} (field : Field α) (rest : Fields αs)
    (h : field.reader depth t = .error e) :
    Reader.record (.cons field rest) (depth + 1)
      (.object ((.name field.name, t) :: members) ending) = .error e := by
  have hfill : (Fields.cons field rest).fill depth field.name t
      (Fields.cons field rest).emptySlots = .error e :=
    (fill_self field rest rest.emptySlots t).trans (by rw [h]; rfl)
  simp only [Reader.record, Reader.enter, Fields.fillAll, Reader.key, Key.read, bind, Except.bind,
    hfill]

theorem Written.fillAll {fields : Fields αs} {members : List (String × Json)} {row : Row αs}
    (h : Written limit fields members row) (hdepth : depth < limit) :
    fields.fillAll depth (memberTrees members) fields.emptySlots =
      within depth (membersDepth members) (fullSlots row) := by
  induction h with
  | nil => rfl
  | @cons α αs field rest value a members row hvalue hnames hrest ih =>
      change ((Fields.cons field rest).fill depth field.name value.toTree (none, rest.emptySlots) >>=
        fun filled => (Fields.cons field rest).fillAll depth (memberTrees members) filled) = _
      rw [fill_self, hvalue depth hdepth, within_map, membersDepth]
      apply within_bind
      rw [fillAll_cons field rest (some a) rest.emptySlots members hnames, ih]
      exact within_map _

theorem Listed.ofItems {fields : Fields αs} {items : List Json} {row : Row αs}
    (h : Listed limit fields items row) (hdepth : depth < limit) (index : Nat) :
    fields.ofItems depth none index (itemTrees items) = within depth (itemsDepth items) row := by
  induction h generalizing index with
  | nil => rfl
  | cons hitem hrest ih =>
      rw [itemTrees, Fields.ofItems, hitem depth hdepth, itemsDepth]
      apply within_bind
      rw [ih]
      exact within_map _

end Fields

namespace Reader.Reads

variable {αs : List Type} {limit : Nat} {fields : Fields αs} {row : Row αs}

theorem record {members : List (String × Json)} (h : fields.Written limit members row) :
    Reads (Reader.record fields) (limit + 1) (.obj members) row := by
  intro depth hdepth
  rw [toTree, Reader.record]
  apply enter_within
  intro less hless
  rw [h.fillAll (by omega)]
  unfold within
  split
  · exact Fields.finish_fullSlots fields row
  · rfl

theorem tuple {items : List Json} (h : fields.Listed limit items row) :
    Reads (Reader.tuple fields) (limit + 1) (.arr items) row := by
  intro depth hdepth
  rw [toTree, Reader.tuple]
  apply enter_within
  intro less hless
  exact h.ofItems (by omega) 0

end Reader.Reads

namespace Fields

-- What the reader of the first field promises holds of what a record has there

variable {α : Type} {αs : List Type} {field : Field α} {rest : Fields αs} {P : α → Prop}
variable {depth : Nat}

section

variable (hfield : ∀ depth t a, field.reader depth t = .ok a → P a)

include hfield

theorem fill_first {name : String} {t : Tree} {slot : Option α} {slots : Slots αs}
    {filled : Option α × Slots αs} (hslot : ∀ a, slot = some a → P a)
    (h : (Fields.cons field rest).fill depth name t (slot, slots) = .ok filled) :
    ∀ a, filled.1 = some a → P a := by
  by_cases hname : name = field.name
  · subst hname
    cases slot with
    | some a =>
        simp only [fill] at h
        cases h
    | none =>
        rw [fill_self] at h
        cases hread : field.reader depth t with
        | error e =>
            rw [hread] at h
            cases h
        | ok a =>
            rw [hread] at h
            cases h
            rintro b ⟨⟩
            exact hfield depth t a hread
  · rw [fill_of_ne field rest slot slots t hname] at h
    cases hrest : rest.fill depth name t slots with
    | error e =>
        rw [hrest] at h
        cases h
    | ok others =>
        rw [hrest] at h
        cases h
        exact hslot

theorem fillAll_first {members : List (Key × Tree)} {slot : Option α} {slots : Slots αs}
    {filled : Option α × Slots αs} (hslot : ∀ a, slot = some a → P a)
    (h : (Fields.cons field rest).fillAll depth members (slot, slots) = .ok filled) :
    ∀ a, filled.1 = some a → P a := by
  induction members generalizing slot slots with
  | nil =>
      cases h
      exact hslot
  | cons member members ih =>
      obtain ⟨k, t⟩ := member
      obtain ⟨name, -, hnext⟩ := bind_eq_ok.mp h
      obtain ⟨⟨next, others⟩, hfill, hrest⟩ := bind_eq_ok.mp hnext
      exact ih (fill_first hfield hslot hfill) hrest

theorem record_first (habsent : field.absent = none) {t : Tree} {row : α × Row αs}
    (h : Reader.record (.cons field rest) depth t = .ok row) : P row.1 := by
  cases t with
  | object members ending =>
      cases depth with
      | zero => cases h
      | succ depth =>
          obtain ⟨⟨slot, slots⟩, hfill, hrest⟩ := bind_eq_ok.mp h
          obtain ⟨⟨last, others⟩, hclose, hfinish⟩ := bind_eq_ok.mp hrest
          have hlast : (slot, slots) = (last, others) := by
            cases ending with
            | none => exact Except.ok.inj hclose
            | some fault => cases hclose
          cases hlast
          have hempty : ∀ a, (none : Option α) = some a → P a := by simp
          have hslot := fillAll_first hfield hempty hfill
          simp only [finish, habsent, Option.or_none] at hfinish
          cases slot with
          | none => cases hfinish
          | some a =>
              obtain ⟨others, -, hrow⟩ := bind_eq_ok.mp hfinish
              cases hrow
              exact hslot a rfl
  | array trees ending =>
      cases depth with
      | zero => cases h
      | succ depth =>
          cases trees with
          | nil =>
              simp only [Reader.record, Reader.enter, ofItems, habsent] at h
              cases ending <;> cases h
          | cons t trees =>
              obtain ⟨a, hread, hrest⟩ := bind_eq_ok.mp h
              obtain ⟨others, -, hrow⟩ := bind_eq_ok.mp hrest
              cases hrow
              exact hfield _ _ a hread
  | null | bool _ | int _ | float | string _ | flawed _ _ _ | missing => cases h

end

end Fields

theorem Reader.lt_of_natBelow {bound depth n : Nat} {t : Tree}
    (h : natBelow bound depth t = .ok n) : n < bound := by
  cases t with
  | int i =>
      simp only [natBelow, map, integer] at h
      split at h
      · rename_i hrange
        cases h
        omega
      · cases h
  | null | bool _ | float | string _ | array _ _ | object _ _ | flawed _ _ _ | missing => cases h

-- A value that is written and read again. Only nesting stands in the way.
theorem read_compact {α : Type} {reader : Reader α} {j : Json} {a : α} (hj : j.Exact)
    (h : ∀ limit, Reader.Reads reader limit j a) :
    read reader j.compact.toList = Reader.within depthLimit j.depth a := by
  rw [compact, String.toList_ofList, read, Document.parse_render hj, Document.read,
    h (depthLimit + 1) depthLimit (by omega)]
  unfold Reader.within
  split <;> rfl

-- A document is read as far as its nesting allows it.
theorem read_toBytes {α : Type} {reader : Reader α} {j : Json} {a : α} (hj : j.Exact)
    (h : ∀ limit, Reader.Reads reader limit j a) :
    read reader (Text.ofBytes (Text.toBytes j.compact)) = Reader.within depthLimit j.depth a := by
  rw [Text.ofBytes_toBytes, read_compact hj h]

-- A tree is read as one value only. Where enough containers may be open, both values are read.
theorem eq_of_toTree_eq {α : Type} {reader : Reader α} {j j' : Json} {a a' : α}
    (ha : ∀ limit, Reader.Reads reader limit j a) (ha' : ∀ limit, Reader.Reads reader limit j' a')
    (h : j.toTree = j'.toTree) : a = a' := by
  let depth := max j.depth j'.depth
  have hread : reader depth j.toTree = .ok a :=
    (ha (depth + 1) depth (by omega)).trans (if_pos (le_max_left _ _))
  have hread' : reader depth j'.toTree = .ok a' :=
    (ha' (depth + 1) depth (by omega)).trans (if_pos (le_max_right _ _))
  rw [h, hread'] at hread
  exact (Except.ok.inj hread).symm

end Covenant.Json
