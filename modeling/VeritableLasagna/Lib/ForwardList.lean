import VeritableLasagna.Lib.LinkedList

/-!
# Singly linked lists in a heap

A node of a singly linked list always names a next iterator: there is no value for *none*, and what
the last node names means nothing. `Forward h l q` says that the heap links the entries of `l` in this
order and that the last one names `q`. An entry is put behind the last by writing to two nodes
(`Forward.concat`), and the first one leaves without a write.
-/

namespace VeritableLasagna

variable {ι α : Type*}

/-- A node of a singly linked list. -/
structure ForwardNode (ι α : Type*) where
  next : ι
  elem : α
  deriving DecidableEq, Repr

def ForwardNode.setNext (q : ι) (n : ForwardNode ι α) : ForwardNode ι α := { n with next := q }

/-- The iterator of the first entry, `q` if there is none. -/
def startIter (l : List (ι × α)) (q : ι) : ι := (headIter l none).getD q

/-- The entries are linked one behind the other, and the last one to `q`. -/
def Forward (h : ι → Option (ForwardNode ι α)) : List (ι × α) → ι → Prop
  | [], _ => True
  | e :: l, q => h e.1 = some ⟨startIter l q, e.2⟩ ∧ Forward h l q

variable {h h' : ι → Option (ForwardNode ι α)} {l l₁ l₂ : List (ι × α)} {e : ι × α} {q q' i : ι} {a : α}

@[simp] theorem startIter_nil : startIter ([] : List (ι × α)) q = q := rfl

@[simp] theorem startIter_cons : startIter (e :: l) q = e.1 := rfl

theorem startIter_append : startIter (l₁ ++ l₂) q = startIter l₁ (startIter l₂ q) := by
  cases l₁ with
  | nil => rfl
  | cons e l => rfl

/-- **A list is cut** at any place. -/
theorem forward_append :
    Forward h (l₁ ++ l₂) q ↔ Forward h l₁ (startIter l₂ q) ∧ Forward h l₂ q := by
  induction l₁ with
  | nil => exact ⟨fun hl => ⟨trivial, hl⟩, fun hl => hl.2⟩
  | cons e l₁ ih => rw [List.cons_append, Forward, Forward, ih, startIter_append, and_assoc]

/-- **Frame rule**: a list only reads its own nodes. -/
theorem Forward.congr (hl : Forward h l q) (hh : ∀ j ∈ l.map Prod.fst, h' j = h j) :
    Forward h' l q := by
  induction l with
  | nil => trivial
  | cons e l ih =>
    obtain ⟨hnode, hl⟩ := hl
    refine ⟨?_, ih hl fun j hj => hh j (List.mem_cons_of_mem _ hj)⟩
    rw [hh e.1 List.mem_cons_self]
    exact hnode

/-- **An entry is put behind the last**: the last one is linked to it, whatever it names itself. -/
theorem Forward.concat (hl : Forward h (l ++ [e]) q)
    (hother : ∀ j ∈ l.map Prod.fst, h' j = h j)
    (hlast : h' e.1 = (h e.1).map (·.setNext i)) (hnew : h' i = some ⟨q', a⟩) :
    Forward h' (l ++ [e, (i, a)]) q' := by
  obtain ⟨hl₁, hnode, -⟩ := forward_append.mp hl
  refine forward_append.mpr ⟨hl₁.congr hother, ?_, hnew, trivial⟩
  rw [hlast, hnode]
  rfl

end VeritableLasagna
