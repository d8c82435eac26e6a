import Mathlib.Data.Multiset.AddSub
import Tether.Proofs.Solver.Ledger

/-!
# Constraints of different contents

Constraints count as one if their contents are the same.  In a list of constraints
whose contents differ, taking out a constraint leaves exactly the others, wherever it
stands.  The installed constraints are such a list.
-/

namespace Tether

variable {α : Type} [Scalar α]

section Distinct

/-- The constraints of a list have different contents. -/
def Constraint.Distinct (l : List (Constraint α)) : Prop :=
  l.Pairwise (fun a b => (a == b) = false)

namespace Constraint

variable {l l' : List (Constraint α)} {c : Constraint α}

instance : Std.Symm (fun a b : Constraint α => (a == b) = false) :=
  ⟨fun a b h => by rwa [beq_comm b a]⟩

theorem beq_refl (c : Constraint α) : (c == c) = true :=
  beq_iff.mpr rfl

theorem beq_congr {a b : Constraint α} (h : (a == b) = true) (c : Constraint α) :
    (a == c) = (b == c) := by
  rw [Bool.eq_iff_iff, beq_iff, beq_iff, beq_iff.mp h]

theorem hasProxies_congr {a b : Constraint α} (h : (a == b) = true) :
    a.hasProxies = b.hasProxies := by
  have hexpression : a.expression = b.expression := congrArg Prod.fst (beq_iff.mp h)
  rw [hasProxies, hexpression, hasProxies]

theorem Distinct.append (h : Distinct l) (hc : l.any (· == c) = false) : Distinct (l ++ [c]) := by
  refine List.pairwise_append.mpr ⟨h, List.pairwise_singleton _ _, ?_⟩
  intro a ha b hb
  rw [List.mem_singleton.mp hb]
  simpa using List.any_eq_false.mp hc a ha

theorem Distinct.any_eq_false {before after : List (Constraint α)}
    (h : Distinct (before ++ c :: after)) : before.any (· == c) = false := by
  refine List.any_eq_false.mpr (fun a ha => ?_)
  simpa using (List.pairwise_append.mp h).2.2 a ha c (List.mem_cons_self ..)

theorem Distinct.beq_eq_false {before after : List (Constraint α)} {d : Constraint α}
    (h : Distinct (before ++ c :: after)) (hd : d ∈ before ++ after) : (c == d) = false := by
  obtain ⟨-, hafter, hbefore⟩ := List.pairwise_append.mp h
  rcases List.mem_append.mp hd with hd | hd
  · rw [beq_comm]
    exact hbefore d hd c (List.mem_cons_self ..)
  · exact (List.pairwise_cons.mp hafter).1 d hd

theorem Distinct.eraseP_eq_filter (h : Distinct l) (c : Constraint α) :
    l.eraseP (fun r => r == c) = l.filter (fun r => !(r == c)) := by
  induction l with
  | nil => rfl
  | cons a rest ih =>
      obtain ⟨ha, hrest⟩ := List.pairwise_cons.mp h
      by_cases hc : (a == c) = true
      · rw [List.eraseP_cons_of_pos (p := fun r => r == c) hc,
          List.filter_cons_of_neg (by simp [hc])]
        refine (List.filter_eq_self.mpr (fun b hb => ?_)).symm
        rw [beq_comm, ← beq_congr hc, ha b hb]
        rfl
      · rw [List.eraseP_cons_of_neg (p := fun r => r == c) hc,
          List.filter_cons_of_pos (by simpa using hc), ih hrest]

end Constraint

/-- Entries with new keys are appended. -/
theorem foldl_insert_eq {β : Type} {l : List (Constraint α × β)}
    {m : OrderedMap (Constraint α) β} (hl : Constraint.Distinct (l.map (·.1)))
    (hm : ∀ e ∈ l, m.contains e.1 = false) :
    l.foldl (fun m e => m.insert e.1 e.2) m = ⟨m.entries ++ l⟩ := by
  induction l generalizing m with
  | nil => simp
  | cons e rest ih =>
      obtain ⟨he, hrest⟩ := List.pairwise_cons.mp hl
      have hentries := OrderedMap.entries_insert_of_not_contains (hm e (List.mem_cons_self ..)) e.2
      rw [List.foldl_cons, ih hrest ?_, hentries, List.append_assoc]
      · rfl
      · intro d hd
        have hold := hm d (List.mem_cons_of_mem _ hd)
        have hnew := he d.1 (List.mem_map_of_mem hd)
        unfold OrderedMap.contains at hold ⊢
        rw [hentries]
        simp only [List.any_append, hold, List.any_cons, hnew, List.any_nil, Bool.or_self]

end Distinct

section Removal

namespace Constraint

/-- Taking out a constraint leaves the others, in whatever order they are counted. -/
theorem Distinct.coe_eraseP {l : List (Constraint α)} (h : Distinct l) {c installed : Constraint α}
    {rest : Multiset (Constraint α)} (hl : (↑l : Multiset (Constraint α)) = installed ::ₘ rest)
    (hc : (installed == c) = true) :
    (↑(l.eraseP (fun r => r == c)) : Multiset (Constraint α)) = rest ∧
      ∀ r ∈ rest, (r == c) = false := by
  obtain ⟨others, rfl⟩ := Quot.exists_rep rest
  have hperm : l.Perm (installed :: others) := Multiset.coe_eq_coe.mp hl
  have hothers : ∀ r ∈ others, (r == c) = false := by
    intro r hr
    have := (List.pairwise_cons.mp (h.perm hperm (fun hab => by rwa [beq_comm]))).1 r hr
    rw [beq_comm, ← beq_congr hc, this]
  refine ⟨?_, hothers⟩
  rw [h.eraseP_eq_filter]
  refine Multiset.coe_eq_coe.mpr ((hperm.filter _).trans ?_)
  rw [List.filter_cons_of_neg (by simp [hc]),
    List.filter_eq_self.mpr (fun r hr => by simp [hothers r hr])]

end Constraint

/-- The installed constraints have different contents. -/
theorem Solver.Ledger.distinct {s : Solver α} (h : s.Ledger) :
    Constraint.Distinct s.constraints.keys :=
  List.pairwise_map.mpr h.tagged.contents

end Removal

end Tether
