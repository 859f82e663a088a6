import Mathlib.Logic.Function.Basic
import Mathlib.Order.Defs.Unbundled
import Mathlib.Tactic

/-!
# A cell with conditional puts

An object in a store is changed by conditional puts only, which name the entity tag that it must
still have. All that is assumed of tags is that none names two contents, so a put that is executed,
however late, replaces the content that it was planned from.

## Main results

* `CasCell.Planned.rel_of_execute`: planned writes keep the order.
-/

namespace CasCell

open Function

variable {ε α : Type*}

/-- A conditional put: `some tag` when the object must still have the tag, `none` when there must
not be an object. -/
structure Put (ε α : Type*) where
  next : α
  precondition : Option ε
  deriving DecidableEq, Repr

structure Cell (ε α : Type*) where
  current : Option (ε × α)
  named : ε → Option α
  named_current : ∀ tag content, current = some (tag, content) → named tag = some content

namespace Cell

/-- The cell before the first put. -/
def empty : Cell ε α := ⟨none, fun _ => none, nofun⟩

variable [DecidableEq ε] [DecidableEq α]

def admits (cell : Cell ε α) (put : Put ε α) : Bool :=
  decide (cell.current.map Prod.fst = put.precondition)

/-- Execute a put whose precondition holds. The tag of the new object is chosen by the store and
does not name another content. -/
def execute (cell : Cell ε α) (put : Put ε α) (tag : ε) : Option (Cell ε α) :=
  if cell.admits put ∧ (cell.named tag = none ∨ cell.named tag = some put.next) then
    some {
      current := some (tag, put.next)
      named := update cell.named tag (some put.next)
      named_current := by
        rintro _ _ ⟨⟩
        exact update_self _ _ _ }
  else none

variable {cell cell' : Cell ε α} {put : Put ε α} {tag : ε}

lemma execute_eq_some (h : cell.execute put tag = some cell') :
    cell.current.map Prod.fst = put.precondition ∧ cell'.current = some (tag, put.next) ∧
      cell'.named = update cell.named tag (some put.next) ∧
      (cell.named tag = none ∨ cell.named tag = some put.next) := by
  rw [execute] at h
  split_ifs at h with hadmits
  obtain rfl := Option.some.inj h
  exact ⟨of_decide_eq_true hadmits.1, rfl, rfl, hadmits.2⟩

lemma named_of_execute (h : cell.execute put tag = some cell') {other : ε} {content : α}
    (hnamed : cell.named other = some content) : cell'.named other = some content := by
  obtain ⟨-, -, hnamed', hfree⟩ := execute_eq_some h
  rw [hnamed']
  by_cases heq : other = tag
  · subst heq
    rw [hnamed] at hfree
    rcases hfree with hnone | hsome
    · cases hnone
    · rw [update_self, hsome]
  · rwa [update_of_ne heq]

lemma named_or_eq_of_execute (h : cell.execute put tag = some cell') {other : ε} {content : α}
    (hnamed : cell'.named other = some content) :
    cell.named other = some content ∨ content = put.next := by
  obtain ⟨-, -, hnamed', -⟩ := execute_eq_some h
  rw [hnamed'] at hnamed
  by_cases heq : other = tag
  · subst heq
    rw [update_self] at hnamed
    exact .inr (Option.some.inj hnamed).symm
  · rw [update_of_ne heq] at hnamed
    exact .inl hnamed

end Cell

variable {cell cell' : Cell ε α} {put : Put ε α} {tag : ε} {rel rel' : α → α → Prop}

def Planned (rel : α → α → Prop) (cell : Cell ε α) (put : Put ε α) : Prop :=
  ∀ tag, put.precondition = some tag → ∃ base, cell.named tag = some base ∧ rel base put.next

def Below (rel : α → α → Prop) (cell : Cell ε α) : Prop :=
  ∀ tag content, cell.named tag = some content →
    ∃ current, cell.current = some current ∧ rel content current.2

namespace Planned

lemma of_named {content next : α} (hnamed : cell.named tag = some content)
    (hrel : rel content next) : Planned rel cell ⟨next, some tag⟩ := by
  rintro _ ⟨⟩
  exact ⟨content, hnamed, hrel⟩

lemma of_none {next : α} : Planned rel cell ⟨next, none⟩ := nofun

lemma imp (h : Planned rel cell put)
    (himp : ∀ tag base, cell.named tag = some base → rel base put.next → rel' base put.next) :
    Planned rel' cell put := by
  intro tag htag
  obtain ⟨base, hnamed, hrel⟩ := h tag htag
  exact ⟨base, hnamed, himp tag base hnamed hrel⟩

variable [DecidableEq ε] [DecidableEq α]

lemma rel_of_execute (h : Planned rel cell put) (hexecute : cell.execute put tag = some cell')
    {current : ε × α} (hcurrent : cell.current = some current) : rel current.2 put.next := by
  obtain ⟨hadmits, -, -, -⟩ := Cell.execute_eq_some hexecute
  rw [hcurrent, Option.map_some] at hadmits
  obtain ⟨base, hnamed, hrel⟩ := h current.1 hadmits.symm
  rw [cell.named_current _ _ hcurrent] at hnamed
  obtain rfl := Option.some.inj hnamed
  exact hrel

lemma execute (h : Planned rel cell put) {other : Put ε α}
    (hexecute : cell.execute other tag = some cell') : Planned rel cell' put := by
  intro tag htag
  obtain ⟨base, hnamed, hrel⟩ := h tag htag
  exact ⟨base, Cell.named_of_execute hexecute hnamed, hrel⟩

end Planned

lemma Below.execute [DecidableEq ε] [DecidableEq α] [Std.Refl rel] [IsTrans α rel]
    (h : Below rel cell) (hplanned : Planned rel cell put)
    (hexecute : cell.execute put tag = some cell') : Below rel cell' := by
  obtain ⟨-, hcurrent, -, -⟩ := Cell.execute_eq_some hexecute
  intro other content hnamed
  refine ⟨_, hcurrent, ?_⟩
  rcases Cell.named_or_eq_of_execute hexecute hnamed with hold | rfl
  · obtain ⟨current, hcurrent', hrel⟩ := h other content hold
    exact IsTrans.trans _ _ _ hrel (hplanned.rel_of_execute hexecute hcurrent')
  · exact Std.Refl.refl _

end CasCell
