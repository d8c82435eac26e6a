import Tether.Proofs.Json.Scanning

/-!
# Reading what was written

The tokens of a value, taken where a value is expected, put that value in its place,
whatever is open around it.  So the text of a formed value is read as that value.
-/

namespace Tether
namespace Json

section Building

variable {r r' r'' : Reading} {t : Token} {ts us : List Token}

/-- Tokens lead from one expectation to another. -/
def Builds (r : Reading) (ts : List Token) (r' : Reading) : Prop :=
  ts.foldlM Reading.take r = some r'

theorem Builds.cons (h : r.take t = some r') (h' : Builds r' ts r'') : Builds r (t :: ts) r'' := by
  rw [Builds, List.foldlM_cons, h]
  exact h'

theorem Builds.append (h : Builds r ts r') (h' : Builds r' us r'') : Builds r (ts ++ us) r'' := by
  rw [Builds, List.foldlM_append, h]
  exact h'

theorem Builds.single (h : r.take t = some r') : Builds r [t] r' :=
  .cons h rfl

/-- No value begins with the end of an array. -/
theorem exists_tokens_eq_cons (j : Json) : ∃ t ts, j.tokens = t :: ts ∧ t ≠ .closeArray := by
  cases j with
  | array items =>
      cases items with
      | nil => exact ⟨.openArray, _, rfl, by simp⟩
      | cons item rest => exact ⟨.openArray, _, rfl, by simp⟩
  | object members =>
      cases members with
      | nil => exact ⟨.openObject, _, rfl, by simp⟩
      | cons member rest => exact ⟨.openObject, _, rfl, by simp⟩
  | _ => exact ⟨_, [], rfl, by simp⟩

/-- The first item of an array is taken like any value. -/
theorem Builds.firstItem {j : Json} {frames : List Frame}
    (h : Builds (.value (.array [] :: frames)) j.tokens r) :
    Builds (.firstItem frames) j.tokens r := by
  obtain ⟨t, ts, htokens, ht⟩ := exists_tokens_eq_cons j
  have htake : Reading.take (.firstItem frames) t =
      Reading.take (.value (.array [] :: frames)) t := by
    cases t with
    | closeArray => exact absurd rfl ht
    | _ => rfl
  rw [Builds, htokens, List.foldlM_cons] at h ⊢
  rw [htake]
  exact h

mutual

/-- The tokens of a value put it in its place. -/
theorem builds_tokens : ∀ (j : Json) (frames : List Frame),
    Builds (.value frames) j.tokens (.complete j frames)
  | null, _ => rfl
  | bool _, _ => rfl
  | number _, _ => rfl
  | string _, _ => rfl
  | array [], _ => rfl
  | array (item :: rest), frames => by
      have hitem : Builds (.firstItem frames) item.tokens (.nextItem [item] frames) :=
        (builds_tokens item (.array [] :: frames)).firstItem
      have hrest := builds_itemTokens rest [item] frames
      have hclose : Reading.take (.nextItem (rest.reverse ++ [item]) frames) .closeArray =
          some (.complete (.array (item :: rest)) frames) := by
        simp [Reading.take]
      rw [tokens]
      exact ((hitem.cons rfl).append hrest).append (.single hclose)
  | object [], _ => rfl
  | object ((key, value) :: rest), frames => by
      have hvalue : Builds (.value (.object [] key :: frames)) value.tokens
          (.nextKey [(key, value)] frames) :=
        builds_tokens value _
      have hrest := builds_memberTokens rest [(key, value)] frames
      have hclose : Reading.take (.nextKey (rest.reverse ++ [(key, value)]) frames) .closeObject =
          some (.complete (.object ((key, value) :: rest)) frames) := by
        simp [Reading.take]
      rw [tokens]
      exact ((((hvalue.cons rfl).cons rfl).cons rfl).append hrest).append (.single hclose)

/-- The tokens of further items put them behind those that are there. -/
theorem builds_itemTokens : ∀ (items before : List Json) (frames : List Frame),
    Builds (.nextItem before frames) (itemTokens items)
      (.nextItem (items.reverse ++ before) frames)
  | [], _, _ => rfl
  | item :: rest, before, frames => by
      have hitem : Builds (.value (.array before :: frames)) item.tokens
          (.nextItem (item :: before) frames) :=
        builds_tokens item _
      have hrest := builds_itemTokens rest (item :: before) frames
      rw [itemTokens, List.reverse_cons, List.append_assoc]
      exact (hitem.cons rfl).append hrest

/-- The tokens of further members put them behind those that are there. -/
theorem builds_memberTokens : ∀ (members before : List (Quoted × Json)) (frames : List Frame),
    Builds (.nextKey before frames) (memberTokens members)
      (.nextKey (members.reverse ++ before) frames)
  | [], _, _ => rfl
  | (key, value) :: rest, before, frames => by
      have hvalue : Builds (.value (.object before key :: frames)) value.tokens
          (.nextKey ((key, value) :: before) frames) :=
        builds_tokens value _
      have hrest := builds_memberTokens rest ((key, value) :: before) frames
      rw [memberTokens, List.reverse_cons, List.append_assoc]
      exact (((hvalue.cons rfl).cons rfl).cons rfl).append hrest

end

end Building

section Texts

/-- The text of a formed value is read as that value. -/
theorem read?_text {j : Json} (h : j.Formed) : read? j.text = some j := by
  unfold read? text
  rw [String.toList_ofList, tokens?_chars h]
  have hbuilt : j.tokens.foldlM Reading.take (.value []) = some (.done j) := builds_tokens j []
  simp [hbuilt]

end Texts

end Json
end Tether
