import FairShare.Proofs.Ledger.Transfer

/-!
# Transfers with every check made

A checked transfer gives nothing if one of its two slots does not hold the volume. `Ledger.Covers` says
of a table that one transfer after the other can be made. What slots hold only goes down, so in the end
it comes to whether every slot holds what the table takes from it altogether (`Ledger.covers_iff`), and
the order of the transfers does not matter.
-/

namespace FairShare
namespace Ledger
variable {l m : Ledger} {table : List (Edge × Volume)}

/-- Moves a volume, unless one of the two slots does not hold it. -/
def transfer? (l : Ledger) (demand supply : Nat) (v : Volume) : Option Ledger :=
  if v ≤ l.remaining .demand demand ∧ v ≤ l.remaining .supply supply then
    some (l.transfer demand supply v)
  else none

def transferAll? (l : Ledger) (table : List (Edge × Volume)) : Option Ledger :=
  table.foldlM (fun l g => l.transfer? g.1.demand g.1.supply g.2) l

/-- One transfer after the other moves no more than both slots hold by then. -/
def Covers : Ledger → List (Edge × Volume) → Prop
  | _, [] => True
  | l, g :: table => (g.2 ≤ l.remaining .demand g.1.demand ∧ g.2 ≤ l.remaining .supply g.1.supply) ∧
    (l.transfer g.1.demand g.1.supply g.2).Covers table

instance decidableCovers : ∀ (l : Ledger) (table : List (Edge × Volume)), Decidable (l.Covers table)
  | _, [] => .isTrue trivial
  | l, g :: table =>
    have := decidableCovers (l.transfer g.1.demand g.1.supply g.2) table
    inferInstanceAs (Decidable (_ ∧ _))

theorem transferAll?_eq_some_iff :
    l.transferAll? table = some m ↔ m = l.transferAll table ∧ l.Covers table := by
  induction table generalizing l with
  | nil => simp [transferAll?, transferAll, Covers, eq_comm]
  | cons g table ih =>
    have hcons : l.transferAll? (g :: table) =
        (l.transfer? g.1.demand g.1.supply g.2).bind fun m => m.transferAll? table := rfl
    rw [hcons, transfer?, Covers]
    split
    · next hheld =>
      rw [Option.bind_some, ih, and_iff_right hheld]
      rfl
    · next hheld => simp [hheld]

/-- It is enough that slots hold what all their edges get together, and no less will do. -/
theorem covers_iff : l.Covers table ↔
    ∀ side i, unitsAlong (·.isAt side i) table ≤ (l.remaining side i).units := by
  induction table generalizing l with
  | nil => exact iff_of_true trivial fun _ _ => Nat.zero_le _
  | cons g table ih =>
    have hheld : (g.2 ≤ l.remaining .demand g.1.demand ∧ g.2 ≤ l.remaining .supply g.1.supply) ↔
        ∀ side, g.2.units ≤ (l.remaining side (g.1.ends.get side)).units :=
      (Side.forall_iff (P := fun side => g.2 ≤ l.remaining side (g.1.ends.get side))).symm
    rw [Covers, ih, hheld]
    -- a slot that is drawn on holds less from now on, and its edges get as much less
    simp only [units_remaining_transfer, unitsAlong_cons, Edge.isAt_iff]
    constructor
    · rintro ⟨hfirst, hrest⟩ side i
      have hle : _ ≤ _ - if g.1.ends.get side = i then _ else _ := hrest side i
      split at hle
      · next hat =>
        have := hat ▸ hfirst side
        rw [if_pos hat]
        omega
      · next hat =>
        rw [if_neg hat]
        omega
    · intro h
      refine ⟨fun side => ?_, fun side i => ?_⟩
      · have hle := h side (g.1.ends.get side)
        rw [if_pos rfl] at hle
        exact Nat.le_trans (Nat.le_add_right ..) hle
      · have hle := h side i
        show _ ≤ _ - if g.1.ends.get side = i then _ else _
        omega

end Ledger
end FairShare
