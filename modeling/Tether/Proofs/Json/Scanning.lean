import Tether.Json.Printer
import Tether.Proofs.Decimal.Numerals
import Tether.Proofs.Json.Quotes

/-!
# Scanning what was written

A value is formed if its numerals are and if what stands between quotes was written
from a text.  The characters of a formed value scan as its tokens.

A word or a numeral ends only where the next token begins, so what is kept from one
part of a value to the next is that its characters could end there: the tokens so
far, with the one that is at hand, are those of the part.
-/

namespace Tether
namespace Json

section Formed

mutual

/-- Numerals are formed, and what stands between quotes was written from a text. -/
def Formed : Json → Prop
  | null => True
  | bool _ => True
  | number n => n.Formed
  | string q => ∃ s, q = .ofString s
  | array items => ItemsFormed items
  | object members => MembersFormed members

/-- Every item is formed. -/
def ItemsFormed : List Json → Prop
  | [] => True
  | item :: rest => item.Formed ∧ ItemsFormed rest

/-- Every key was written from a text, and every value is formed. -/
def MembersFormed : List (Quoted × Json) → Prop
  | [] => True
  | (key, value) :: rest => (∃ s, key = .ofString s) ∧ value.Formed ∧ MembersFormed rest

end

theorem itemsFormed_iff {items : List Json} : ItemsFormed items ↔ ∀ j ∈ items, j.Formed := by
  induction items with
  | nil => simp [ItemsFormed]
  | cons item rest ih => simp [ItemsFormed, ih]

theorem membersFormed_iff {members : List (Quoted × Json)} :
    MembersFormed members ↔ ∀ m ∈ members, (∃ s, m.1 = .ofString s) ∧ m.2.Formed := by
  induction members with
  | nil => simp [MembersFormed]
  | cons m rest ih =>
      obtain ⟨key, value⟩ := m
      simp [MembersFormed, ih, and_assoc]

end Formed

section Tokens

mutual

/-- The tokens of a value. -/
def tokens : Json → List Token
  | null => [.scalar null]
  | bool b => [.scalar (bool b)]
  | number n => [.scalar (number n)]
  | string q => [.string q]
  | array [] => [.openArray, .closeArray]
  | array (item :: rest) => .openArray :: item.tokens ++ itemTokens rest ++ [.closeArray]
  | object [] => [.openObject, .closeObject]
  | object ((key, value) :: rest) =>
      .openObject :: .string key :: .colon :: value.tokens ++ memberTokens rest ++ [.closeObject]

/-- The tokens of the items after the first. -/
def itemTokens : List Json → List Token
  | [] => []
  | item :: rest => .comma :: item.tokens ++ itemTokens rest

/-- The tokens of the members after the first. -/
def memberTokens : List (Quoted × Json) → List Token
  | [] => []
  | (key, value) :: rest =>
      .comma :: .string key :: .colon :: value.tokens ++ memberTokens rest

end

end Tokens

section Scanning

variable {mode mode' mode'' : Mode} {cs ds : List Char} {ts us : List Token} {c : Char}

/-- Characters taken in one mode give tokens and end in another mode. -/
def Scans (mode : Mode) (cs : List Char) (ts : List Token) (mode' : Mode) : Prop :=
  ∀ seen, cs.foldlM scanChar (seen, mode) = some (ts.reverse ++ seen, mode')

theorem Scans.nil (mode : Mode) : Scans mode [] [] mode :=
  fun _ => rfl

theorem Scans.append (h : Scans mode cs ts mode') (h' : Scans mode' ds us mode'') :
    Scans mode (cs ++ ds) (ts ++ us) mode'' := by
  intro seen
  rw [List.foldlM_append, h seen]
  exact (h' _).trans (by simp)

theorem Scans.single (h : takeChar mode c = some (ts, mode')) : Scans mode [c] ts mode' := by
  intro seen
  simp [scanChar, h]

theorem Scans.cons (h : takeChar mode c = some (ts, mode')) (h' : Scans mode' cs us mode'') :
    Scans mode (c :: cs) (ts ++ us) mode'' :=
  (Scans.single h).append h'

/-- Characters that all leave a mode of one kind, and are kept. -/
theorem scans_kept (keep : List Char → Mode) (h : ∀ c ∈ cs, ∀ seen,
      takeChar (keep seen) c = some ([], keep (c :: seen))) (seen : List Char) :
    Scans (keep seen) cs [] (keep (cs.reverse ++ seen)) := by
  induction cs generalizing seen with
  | nil => exact .nil _
  | cons c rest ih =>
      have hrest := ih (fun d hd => h d (List.mem_cons_of_mem c hd)) (c :: seen)
      have := Scans.cons (h c List.mem_cons_self seen) hrest
      simpa using this

end Scanning

section Quotes

theorem takeChar_backslash (seen : List Char) :
    takeChar (.quoted seen) '\\' = some ([], .escape ('\\' :: seen)) :=
  rfl

theorem takeChar_hex {k n : Nat} (hn : n < 16) (seen : List Char) :
    takeChar (.hex k seen) (Quoted.hexDigit n) =
      if k ≤ 1 then some ([], .quoted (Quoted.hexDigit n :: seen))
      else some ([], .hex (k - 1) (Quoted.hexDigit n :: seen)) := by
  rw [takeChar, Quoted.hexValue?_hexDigit hn]
  rfl

/-- Four hexadecimal digits behind a backslash and a u. -/
theorem scans_control {n : Nat} (h : n < 32) (seen : List Char) :
    Scans (.quoted seen)
      ['\\', 'u', '0', '0', Quoted.hexDigit (n / 16), Quoted.hexDigit (n % 16)] []
      (.quoted (['\\', 'u', '0', '0', Quoted.hexDigit (n / 16),
        Quoted.hexDigit (n % 16)].reverse ++ seen)) := by
  have hhigh := takeChar_hex (k := 2) (show n / 16 < 16 by omega)
    ('0' :: '0' :: 'u' :: '\\' :: seen)
  have hlow := takeChar_hex (k := 1) (show n % 16 < 16 by omega)
    (Quoted.hexDigit (n / 16) :: '0' :: '0' :: 'u' :: '\\' :: seen)
  have hstart : Scans (.quoted seen) ['\\', 'u', '0', '0'] []
      (.hex 2 ('0' :: '0' :: 'u' :: '\\' :: seen)) :=
    fun _ => rfl
  exact (hstart.append (Scans.single hhigh)).append (Scans.single hlow)

/-- What a character is written as between quotes stays between the quotes. -/
theorem scans_escape (c : Char) (seen : List Char) :
    Scans (.quoted seen) (Quoted.escape c) [] (.quoted ((Quoted.escape c).reverse ++ seen)) := by
  rcases Quoted.escape_cases c with ⟨d, hescape, hu, hletter⟩ | ⟨hcontrol, hescape⟩ |
    ⟨hquote, hslash, hcontrol, hescape⟩
  · have htake : takeChar (.escape ('\\' :: seen)) d =
        some ([], .quoted (d :: '\\' :: seen)) := by
      rw [takeChar, if_neg hu, hletter]
      rfl
    rw [hescape]
    exact Scans.cons (takeChar_backslash seen) (Scans.single htake)
  · rw [hescape]
    exact scans_control hcontrol seen
  · have htake : takeChar (.quoted seen) c = some ([], .quoted (c :: seen)) := by
      rw [takeChar, if_neg hquote, if_neg hslash, if_neg hcontrol]
    rw [hescape]
    exact Scans.single htake

/-- A written text scans as one token. -/
theorem scans_quote (s : String) :
    Scans .between (quote (.ofString s)) [.string (.ofString s)] .between := by
  have hraw : ∀ (cs seen : List Char), Scans (.quoted seen) (cs.flatMap Quoted.escape) []
      (.quoted ((cs.flatMap Quoted.escape).reverse ++ seen)) := by
    intro cs
    induction cs with
    | nil => exact fun seen => .nil _
    | cons c rest ih =>
        intro seen
        simpa using (scans_escape c seen).append (ih _)
  have hopen : takeChar .between '"' = some ([], .quoted []) := rfl
  have hclose : takeChar (.quoted (Quoted.ofString s).raw.reverse) '"' =
      some ([.string ⟨(Quoted.ofString s).raw.reverse.reverse⟩], .between) := rfl
  rw [List.reverse_reverse] at hclose
  have hinside := hraw s.toList []
  rw [List.append_nil] at hinside
  exact Scans.cons hopen (hinside.append (Scans.single hclose))

end Quotes

section Reads

variable {cs ds : List Char} {ts us : List Token} {c : Char} {t : Token}

/-- Characters that come to tokens, if they could end there. -/
def Reads (cs : List Char) (ts : List Token) : Prop :=
  ∃ mode out last, Scans .between cs out mode ∧ finish? mode = some last ∧ out ++ last = ts

theorem Scans.reads (h : Scans .between cs ts .between) : Reads cs ts :=
  ⟨.between, ts, [], h, rfl, List.append_nil ts⟩

/-- A character that is a token of its own. -/
structure Divides (c : Char) (t : Token) : Prop where
  token : beginToken c = some ([t], .between)
  notLower : c.isLower = false
  notNumeral : inNumeral c = false

/-- A dividing character ends what comes before it. -/
theorem Reads.divide (h : Reads cs ts) (hc : Divides c t) :
    Scans .between (cs ++ [c]) (ts ++ [t]) .between := by
  obtain ⟨mode, out, last, hscans, hfinish, rfl⟩ := h
  rw [List.append_assoc]
  refine hscans.append (Scans.single ?_)
  have hend : endBefore mode c = some (last ++ [t], .between) := by
    rw [endBefore, hfinish, hc.token]
    rfl
  cases mode with
  | between =>
      cases hfinish
      exact hc.token
  | word seen => rw [takeChar, hc.notLower]; exact hend
  | numeral seen => rw [takeChar, hc.notNumeral]; exact hend
  | quoted seen => cases hfinish
  | escape seen => cases hfinish
  | hex digits seen => cases hfinish

/-- What stands before a dividing character and what stands after it are read
apart. -/
theorem Reads.join (h : Reads cs ts) (hc : Divides c t) (h' : Reads ds us) :
    Reads (cs ++ c :: ds) (ts ++ t :: us) := by
  obtain ⟨mode, out, last, hscans, hfinish, rfl⟩ := h'
  refine ⟨mode, ts ++ [t] ++ out, last, ?_, hfinish, by simp⟩
  simpa using (h.divide hc).append hscans

theorem reads_nil : Reads [] [] :=
  (Scans.nil .between).reads

theorem divides_openArray : Divides '[' .openArray := ⟨rfl, rfl, rfl⟩

theorem divides_closeArray : Divides ']' .closeArray := ⟨rfl, rfl, rfl⟩

theorem divides_openObject : Divides '\x7b' .openObject := ⟨rfl, rfl, rfl⟩

theorem divides_closeObject : Divides '\x7d' .closeObject := ⟨rfl, rfl, rfl⟩

theorem divides_colon : Divides ':' .colon := ⟨rfl, rfl, rfl⟩

theorem divides_comma : Divides ',' .comma := ⟨rfl, rfl, rfl⟩

theorem reads_numeral {n : Decimal.Numeral} (h : n.Formed) :
    Reads n.chars [.scalar (.number n)] := by
  obtain ⟨c, rest, hchars, hc, hrest⟩ := h.exists_chars_eq_cons
  have hread := Decimal.Numeral.ofChars?_chars h
  have hstart : takeChar .between c = some ([], .numeral [c]) := by
    rcases hc with hc | rfl
    · have hne : ∀ d : Char, d.isDigit = false → c ≠ d := by
        rintro d hd rfl
        rw [hc] at hd
        cases hd
      simp [takeChar, beginToken, isBlank, hc, hne ' ' rfl, hne '\n' rfl, hne '\t' rfl,
        hne '\r' rfl, hne '"' rfl]
    · rfl
  have hkept := scans_kept .numeral
    (fun d hd seen => by rw [takeChar, if_pos (hrest d hd)]) [c]
  rw [hchars] at hread ⊢
  refine ⟨_, [], _, Scans.cons hstart hkept, ?_, List.nil_append _⟩
  simp [finish?, hread]

mutual

/-- The characters of a formed value are read as its tokens. -/
theorem reads_chars : ∀ j : Json, j.Formed → Reads j.chars j.tokens
  | null, _ => ⟨.word ['l', 'l', 'u', 'n'], [], _, fun _ => rfl, rfl, rfl⟩
  | bool true, _ => ⟨.word ['e', 'u', 'r', 't'], [], _, fun _ => rfl, rfl, rfl⟩
  | bool false, _ => ⟨.word ['e', 's', 'l', 'a', 'f'], [], _, fun _ => rfl, rfl, rfl⟩
  | number _, h => reads_numeral h
  | string q, h => by
      obtain ⟨s, rfl⟩ := h
      exact (scans_quote s).reads
  | array [], _ => (reads_nil.join divides_openArray reads_nil).join divides_closeArray reads_nil
  | array (item :: rest), h => by
      have hitem := reads_nil.join divides_openArray (reads_chars item h.1)
      have hitems := reads_itemChars rest h.2 hitem
      simpa [chars, tokens] using hitems.join divides_closeArray reads_nil
  | object [], _ =>
      (reads_nil.join divides_openObject reads_nil).join divides_closeObject reads_nil
  | object ((key, value) :: rest), h => by
      obtain ⟨⟨s, rfl⟩, hvalue, hrest⟩ := h
      have hkey := reads_nil.join divides_openObject (scans_quote s).reads
      have hmember := hkey.join divides_colon (reads_chars value hvalue)
      have hmembers := reads_memberChars rest hrest hmember
      simpa [chars, tokens] using hmembers.join divides_closeObject reads_nil

/-- Items continue what is read. -/
theorem reads_itemChars : ∀ (items : List Json), ItemsFormed items → ∀ {cs ts}, Reads cs ts →
    Reads (cs ++ itemChars items) (ts ++ itemTokens items)
  | [], _, _, _, h => by simpa [itemChars, itemTokens] using h
  | item :: rest, hitems, _, _, h => by
      have hitem := h.join divides_comma (reads_chars item hitems.1)
      simpa [itemChars, itemTokens] using reads_itemChars rest hitems.2 hitem

/-- Members continue what is read. -/
theorem reads_memberChars : ∀ (members : List (Quoted × Json)), MembersFormed members →
    ∀ {cs ts}, Reads cs ts → Reads (cs ++ memberChars members) (ts ++ memberTokens members)
  | [], _, _, _, h => by simpa [memberChars, memberTokens] using h
  | (key, value) :: rest, hmembers, _, _, h => by
      obtain ⟨⟨s, rfl⟩, hvalue, hrest⟩ := hmembers
      have hkey := h.join divides_comma (scans_quote s).reads
      have hmember := hkey.join divides_colon (reads_chars value hvalue)
      simpa [memberChars, memberTokens] using reads_memberChars rest hrest hmember

end

/-- The text of a formed value has its tokens. -/
theorem tokens?_chars {j : Json} (h : j.Formed) : tokens? j.chars = some j.tokens := by
  obtain ⟨mode, out, last, hscans, hfinish, houtput⟩ := reads_chars j h
  unfold tokens?
  rw [hscans []]
  simp [hfinish, houtput]

end Reads

end Json
end Tether
