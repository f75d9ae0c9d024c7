/-
Templates in a row.

* `Row.join` — two rows of parts make one row, in which texts that meet are one text;
* `render_joinRows` — it is written as the two rows are, one behind the other.

Design notes: a template that ends in a dollar sign is left out, because a brace behind it
would stand for itself.
-/
import Interpolation.Proofs.Template.Rendering

namespace Interpolation.Template

/-- The parts of one row and then those of another; texts that meet are one text. -/
def joinRows : List Part → List Part → List Part
  | [], later => later
  | [.text first], .text second :: later => .text (first ++ second) :: later
  | part :: rest, later => part :: joinRows rest later

variable {P : List Char → Prop} {a b : List Part}

theorem joinRows_code (source : List Char) (rest b : List Part) :
    joinRows (.code source :: rest) b = .code source :: joinRows rest b := by
  simp [joinRows]

/-- The last part takes in no more than the text behind it. -/
theorem joinRows_last (chars : List Char) (b : List Part) :
    (∃ more rest, b = .text more :: rest ∧
      joinRows [.text chars] b = .text (chars ++ more) :: rest) ∨
    ((∀ more rest, b ≠ .text more :: rest) ∧ joinRows [.text chars] b = .text chars :: b) := by
  cases b with
  | nil => exact .inr ⟨nofun, by simp [joinRows]⟩
  | cons part rest =>
    cases part with
    | text more => exact .inl ⟨more, rest, rfl, by simp [joinRows]⟩
    | code source => exact .inr ⟨nofun, by simp [joinRows]⟩

/-- Text ends in the same character when it is rendered. -/
theorem getLast?_escapeOpen (cs : List Char) : (escapeOpen cs).getLast? = cs.getLast? := by
  fun_induction escapeOpen cs with
  | case1 cs ih => simp [List.getLast?_cons, ih]
  | case2 c cs hplain ih => simp [List.getLast?_cons, ih]
  | case3 => rfl

theorem getLast?_ne_of_cons {c d : Char} {cs : List Char} (h : (c :: cs).getLast? ≠ some d) :
    cs.getLast? ≠ some d := by
  intro hlast
  simp [List.getLast?_cons, hlast] at h

/-- Text that ends in no dollar sign is rendered the same whatever comes behind it. -/
theorem escapeOpen_append {first : List Char} (h : first.getLast? ≠ some '$')
    (second : List Char) :
    escapeOpen (first ++ second) = escapeOpen first ++ escapeOpen second := by
  fun_induction escapeOpen first with
  | case1 cs ih =>
    simp [escapeOpen, ih (getLast?_ne_of_cons (getLast?_ne_of_cons h))]
  | case2 c cs hplain ih =>
    rw [List.cons_append, escapeOpen_cons, ih (getLast?_ne_of_cons h), List.cons_append]
    intro rest heq
    obtain ⟨rfl, hrest⟩ := List.cons.inj heq
    -- what opens nothing by itself would have to do so at the seam
    cases cs with
    | nil => exact h rfl
    | cons d ds =>
      obtain ⟨rfl, -⟩ := List.cons.inj hrest
      exact hplain ds rfl rfl
  | case3 => rfl

theorem getLast?_render_text (chars : List Char) :
    (render [.text chars]).getLast? = chars.getLast? := by
  simp [render, Part.render, getLast?_escapeOpen]

theorem getLast?_render_rest {part : Part} {rest : List Part}
    (h : (render (part :: rest)).getLast? ≠ some '$') : (render rest).getLast? ≠ some '$' := by
  intro hrest
  rw [render, List.flatMap_cons, List.getLast?_append, ← render, hrest] at h
  exact h rfl

/-- **Two rows of parts make one row**, if the first does not end in a dollar sign. -/
theorem Row.join (ha : Row P a) (hb : Row P b) (hend : (render a).getLast? ≠ some '$') :
    Row P (joinRows a b) := by
  induction ha with
  | nil => simpa [joinRows] using hb
  | code hsource _ ih =>
    rw [joinRows_code]
    exact .code hsource (ih (getLast?_render_rest hend))
  | @last chars hne =>
    rw [getLast?_render_text] at hend
    rcases joinRows_last chars b with ⟨more, rest, rfl, hjoin⟩ | ⟨hcode, hjoin⟩
    · rw [hjoin]
      cases hb with
      | last hmore => exact .last (by simp [hne])
      | text hmore hdollar hrest =>
        refine .text (by simp [hne]) ?_ hrest
        rwa [List.getLast?_append_of_ne_nil _ hmore]
    · rw [hjoin]
      cases hb with
      | nil => exact .last hne
      | code hsource hrest => exact .text hne hend (.code hsource hrest)
      | last | text => exact absurd rfl (hcode _ _)
  | @text chars source rest hne hdollar _ ih =>
    have htail := ih (getLast?_render_rest hend)
    rw [joinRows_code] at htail
    simpa [joinRows] using Row.text hne hdollar htail

/-- **Rows are written one behind the other.** -/
theorem render_joinRows (b : List Part) (hend : (render a).getLast? ≠ some '$') :
    render (joinRows a b) = render a ++ render b := by
  fun_induction joinRows a b with
  | case1 b => rfl
  | case2 first second later =>
    rw [getLast?_render_text] at hend
    simp [render, Part.render, escapeOpen_append hend]
  | case3 b part rest _ ih =>
    have hrest := ih (getLast?_render_rest hend)
    simp only [render, List.flatMap_cons] at hrest ⊢
    rw [hrest, List.append_assoc]

/-- The code in two rows is the code in either of them. -/
theorem code_mem_joinRows {source : List Char} (h : .code source ∈ joinRows a b) :
    .code source ∈ a ∨ .code source ∈ b := by
  fun_induction joinRows a b with
  | case1 b => exact .inr h
  | case2 first second later => exact .inr (by simpa using h)
  | case3 b part rest _ ih =>
    rcases List.mem_cons.mp h with rfl | h
    · exact .inl List.mem_cons_self
    · exact (ih h).imp_left (List.mem_cons_of_mem _)

variable {Owner : Type}

theorem exists_meaning_of_means {nodes : List (Node Owner)}
    (h : List.Forall₂ Part.Means a nodes) :
    ∀ source, .code source ∈ a → ∃ m : Node Owner, meaning source = .ok m := by
  induction h with
  | nil => exact fun source hmem => nomatch hmem
  | cons hpart _ ih =>
    intro source hmem
    rcases List.mem_cons.mp hmem with rfl | hmem
    · exact ⟨_, hpart⟩
    · exact ih source hmem

/-- The code of a template that can be read has a meaning. -/
theorem exists_meaning_of_parse (h : Row Closes a) {p : Pos} {n : Node Owner}
    (hparse : parse (String.ofList (render a)) p = .ok n) :
    ∀ source, .code source ∈ a → ∃ m : Node Owner, meaning source = .ok m := by
  obtain ⟨nodes, rfl, hmeans⟩ := means_of_parse h hparse
  exact exists_meaning_of_means hmeans

end Interpolation.Template
