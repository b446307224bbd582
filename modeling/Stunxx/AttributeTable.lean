import Mathlib.Data.List.Induction
import Stunxx.Stun

/-!
# The attribute table

`AttributeTable.hpp` and `AttributeTable.cpp`. The constructor is `attributes_(10)`: the table
starts with ten value-initialised headers.
-/

namespace Stunxx

/-- `std::vector<AttrHeader> attributes_`. -/
structure AttributeTable where
  attributes : List AttrHeader
deriving DecidableEq

namespace AttributeTable

def new : AttributeTable := ⟨List.replicate 10 {}⟩

def append (t : AttributeTable) (header : AttrHeader) : AttributeTable :=
  ⟨t.attributes ++ [header]⟩

/-- The overload of `append` that takes the fields. -/
def appendFields (t : AttributeTable) (type length : UInt16) (offset : Nat) : AttributeTable :=
  ⟨t.attributes ++ [{ type, len := length, offset }]⟩

def clear (_ : AttributeTable) : AttributeTable := ⟨[]⟩

def get (t : AttributeTable) (type : UInt16) : Option AttrHeader :=
  t.attributes.find? fun attr => attr.type == type

/-- The loop over the headers, with the results so far. -/
def getAllLoop (type : UInt16) (results : List AttrHeader) : List AttrHeader → List AttrHeader
  | [] => results
  | h :: hs => getAllLoop type (if h.type == type then results ++ [h] else results) hs

def getAll (t : AttributeTable) (type : UInt16) : List AttrHeader :=
  getAllLoop type [] t.attributes

/-- The filtered view. -/
def range (t : AttributeTable) (type : UInt16) : List AttrHeader :=
  t.attributes.filter fun a => a.type == type

theorem getAllLoop_eq (type : UInt16) (results hs : List AttrHeader) :
    getAllLoop type results hs = results ++ hs.filter (fun h => h.type == type) := by
  induction hs generalizing results with
  | nil => rw [getAllLoop, List.filter_nil, List.append_nil]
  | cons h hs ih =>
    rw [getAllLoop, ih, List.filter_cons]
    split
    · rw [List.append_assoc, List.singleton_append]
    · rfl

/-- The vector and the view list the same headers. -/
theorem getAll_eq_range (t : AttributeTable) (type : UInt16) : t.getAll type = t.range type :=
  getAllLoop_eq type [] t.attributes

theorem get_eq_head (t : AttributeTable) (type : UInt16) : t.get type = (t.range type).head? :=
  List.head?_filter.symm

/-- The headers present from the start all have type zero. -/
theorem range_append_new {type : UInt16} (hs : List AttrHeader) :
    (⟨new.attributes ++ hs⟩ : AttributeTable).range type =
      (if type = 0 then new.attributes else []) ++ hs.filter (fun h => h.type == type) := by
  rw [range, List.filter_append]
  congr 1
  split
  · next h => rw [h]; rfl
  · next h =>
    rw [new, List.filter_replicate_of_neg]
    simpa using Ne.symm h

/-! ## Calls -/

/-- A call that changes the table. -/
inductive Call
  | append (header : AttrHeader)
  | appendFields (type length : UInt16) (offset : Nat)
  | clear
deriving DecidableEq

def apply (t : AttributeTable) : Call → AttributeTable
  | .append header => t.append header
  | .appendFields type length offset => t.appendFields type length offset
  | .clear => t.clear

/-- What a user of the table put in since it was last cleared. -/
def log (hs : List AttrHeader) : Call → List AttrHeader
  | .append header => hs ++ [header]
  | .appendFields type length offset => hs ++ [{ type, len := length, offset }]
  | .clear => []

/-- The table holds the log, behind the headers it was made with until it is cleared. -/
theorem foldl_apply (t : AttributeTable) (calls : List Call) :
    (calls.foldl apply t).attributes =
      (if Call.clear ∈ calls then [] else t.attributes) ++ calls.foldl log [] := by
  induction calls using List.reverseRecOn with
  | nil => rw [if_neg List.not_mem_nil, List.foldl_nil, List.foldl_nil, List.append_nil]
  | append_singleton calls call ih =>
    rw [List.foldl_append, List.foldl_append]
    cases call with
    | clear => rw [if_pos (List.mem_append_right _ (List.mem_singleton_self _))]; rfl
    | append header =>
      have hmem : Call.clear ∈ calls ++ [.append header] ↔ Call.clear ∈ calls := by simp
      show (calls.foldl apply t).attributes ++ [header] = _ ++ (calls.foldl log [] ++ [header])
      rw [if_congr hmem rfl rfl, ← List.append_assoc, ← ih]
    | appendFields type length offset =>
      have hmem : Call.clear ∈ calls ++ [.appendFields type length offset] ↔
          Call.clear ∈ calls := by simp
      show (calls.foldl apply t).attributes ++ [_] = _ ++ (calls.foldl log [] ++ [_])
      rw [if_congr hmem rfl rfl, ← List.append_assoc, ← ih]

/-- The table answers for the code `type` as the list `hs` does. -/
structure Answers (t : AttributeTable) (hs : List AttrHeader) (type : UInt16) : Prop where
  get : t.get type = hs.find? fun h => h.type == type
  getAll : t.getAll type = hs.filter fun h => h.type == type
  range : t.range type = hs.filter fun h => h.type == type

/-- **A table is a log**: after any calls it answers for every code but zero what was put in since
it was last cleared, and for zero too once it was cleared; before that it has ten headers more. -/
theorem answers_iff (calls : List Call) (type : UInt16) :
    (calls.foldl apply new).Answers (calls.foldl log []) type ↔
      type ≠ 0 ∨ Call.clear ∈ calls := by
  have hrange : (calls.foldl apply new).range type =
      (if type ≠ 0 ∨ Call.clear ∈ calls then [] else new.attributes) ++
        (calls.foldl log []).filter (fun h => h.type == type) := by
    by_cases hclear : Call.clear ∈ calls
    · rw [range, foldl_apply, if_pos hclear, if_pos (.inr hclear), List.nil_append, List.nil_append]
    · have hfold : calls.foldl apply new = ⟨new.attributes ++ calls.foldl log []⟩ := by
        rw [AttributeTable.mk.injEq, foldl_apply, if_neg hclear]
      rw [hfold, range_append_new]
      by_cases hzero : type = 0
      · rw [if_pos hzero, if_neg (by simp [hzero, hclear])]
      · rw [if_neg hzero, if_pos (.inl hzero)]
  constructor
  · intro h
    by_contra hghost
    have hlen := congrArg List.length h.range
    rw [hrange, if_neg hghost, List.length_append, new, List.length_replicate] at hlen
    omega
  · intro hexact
    rw [if_pos hexact, List.nil_append] at hrange
    exact ⟨by rw [get_eq_head, hrange, List.head?_filter], by rw [getAll_eq_range, hrange], hrange⟩

end AttributeTable

end Stunxx
