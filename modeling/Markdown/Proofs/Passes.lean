import Markdown.Proofs.Pattern.Delimited
import Markdown.Proofs.Pattern.Lines
import Markdown.Proofs.Pattern.Tokens
import Markdown.Proofs.Templates
import Markdown.Renderer

/-!
# Passes

All rules of the standard table but the first and the last one have pure replacements, so that each
of them is a function of the document, its pass. A table of such rules runs their passes one after
another and leaves all but the log as it is (`Table.IsPure.apply_eq`).
-/

namespace Markdown

/-! ## The pass of a rule -/

namespace Rule

/-- What a rule makes of a document under some options, when nothing has happened before. -/
def pass (r : Rule) (o : Options) (t : Text) : Text :=
  (r.apply t { options := o }).1

variable {r : Rule} {ρ : Options → Match → Text}

theorem IsPure.pass_eq (h : r.IsPure ρ) (o : Options) (t : Text) :
    r.pass o t = r.pattern.rewriteFrom (ρ o) none t :=
  (h.apply_eq t { options := o }).1

/-- A document stays if each of the words that the pattern needs has a character that it does not
have. -/
theorem IsPure.pass_of_notMem (h : r.IsPure ρ) (hp : r.pattern.finder.IsProper) {ms : List Text}
    (hms : r.pattern.OpensWith ms) (o : Options) {t : Text} (ht : ∀ m ∈ ms, ∃ c ∈ m, c ∉ t) :
    r.pass o t = t := by
  rw [h.pass_eq]
  exact Pattern.rewriteFrom_of_notMem hp hms (ρ o) none ht

/-- The same for a pattern that needs one word. -/
theorem IsPure.pass_of_notMem_word (h : r.IsPure ρ) (hp : r.pattern.finder.IsProper) {w : Text}
    (hw : r.pattern.OpensWith [w]) (o : Options) {t : Text} {c : Char} (hc : c ∈ w) (ht : c ∉ t) :
    r.pass o t = t :=
  h.pass_of_notMem hp hw o (List.forall_mem_singleton.2 ⟨c, hc, ht⟩)

/-- A document stays if the word that the pattern needs begins nowhere in it. -/
theorem IsPure.pass_of_isFree_word (h : r.IsPure ρ) (hp : r.pattern.finder.IsProper) {w : Text}
    (hw : r.pattern.OpensWith [w]) (o : Options) {t : Text} (ht : Text.IsFree w t) :
    r.pass o t = t := by
  rw [h.pass_eq]
  exact (Pattern.Turns.of_isFree_word hp hw (ρ o) [] ht).rewriteFrom_eq hp none

theorem IsPure.apply_eq_pass (h : r.IsPure ρ) (t : Text) (cx : Context) :
    (r.apply t cx).1 = r.pass cx.options t ∧ (r.apply t cx).2.quiet = cx.quiet := by
  rw [h.pass_eq]
  exact h.apply_eq t cx

end Rule

namespace Table

/-- What the rules of a table make of a document by their passes. -/
def pass (t : Table) (o : Options) (document : Text) : Text :=
  t.foldl (fun document r => r.pass o document) document

@[simp] theorem pass_nil (o : Options) (document : Text) : pass [] o document = document := rfl

@[simp] theorem pass_cons (r : Rule) (t : Table) (o : Options) (document : Text) :
    pass (r :: t) o document = pass t o (r.pass o document) := by
  rw [pass, List.foldl_cons, pass]

theorem pass_append (t t' : Table) (o : Options) (document : Text) :
    pass (t ++ t') o document = pass t' o (pass t o document) := by
  rw [pass, List.foldl_append]
  rfl

/-- What each pass of a table preserves, the table does. -/
theorem pass_induction {motive : Text → Prop} {t : Table} {o : Options} {d : Text}
    (h : ∀ r ∈ t, ∀ d, motive d → motive (r.pass o d)) (hd : motive d) : motive (t.pass o d) := by
  induction t generalizing d with
  | nil => exact hd
  | cons r t ih =>
    rw [pass_cons]
    exact ih (fun q hq => h q (List.mem_cons_of_mem r hq)) (h r (by simp) d hd)

theorem apply_cons (r : Rule) (t : Table) (document : Text) (cx : Context) :
    apply (r :: t) document cx = apply t (r.apply document cx).1 (r.apply document cx).2 := rfl

theorem apply_append (t t' : Table) (document : Text) (cx : Context) :
    apply (t ++ t') document cx = apply t' (apply t document cx).1 (apply t document cx).2 := by
  simp [apply, List.foldl_append]

/-- All rules of a table have pure replacements. -/
def IsPure (t : Table) : Prop :=
  ∀ r ∈ t, ∃ ρ, r.IsPure ρ

/-- A table of rules with pure replacements runs their passes, and leaves all but the log as it
is. -/
theorem IsPure.apply_eq {t : Table} (h : t.IsPure) (document : Text) (cx : Context) :
    (t.apply document cx).1 = t.pass cx.options document ∧
      (t.apply document cx).2.quiet = cx.quiet := by
  induction t generalizing document cx with
  | nil => exact ⟨rfl, rfl⟩
  | cons r t ih =>
    obtain ⟨ρ, hr⟩ := h r (by simp)
    obtain ⟨htext, hquiet⟩ := hr.apply_eq_pass document cx
    obtain ⟨ihtext, ihquiet⟩ := ih (fun q hq => h q (by simp [hq])) (r.apply document cx).1
      (r.apply document cx).2
    have hoptions : (r.apply document cx).2.options = cx.options := by
      rw [← Context.options_quiet, hquiet, Context.options_quiet]
    rw [apply_cons, pass_cons, ihtext, ihquiet, htext, hoptions]
    exact ⟨rfl, hquiet⟩

end Table

/-! ## The standard rules -/

namespace Table

theorem isPure_ofMatch (p : Pattern) (f : Match → Text) :
    (handling p (.ofMatch f)).IsPure fun _ => f :=
  fun _ _ => rfl

theorem isPure_header :
    (handling .header Handler.header).IsPure fun o m => '\n' :: Handler.element
      ('h' :: Text.ofNat (o.headingLevel (Text.byteSize (m.group 1)))) (Text.trim (m.group 2)) :=
  fun _ _ => rfl

theorem isPure_image : (handling .image Handler.image).IsPure fun _ m =>
    "<img src='".toList ++ Url.hide (m.group 2) ++ "' alt='".toList ++ m.group 1 ++ "' />".toList :=
  isPure_ofMatch _ _

theorem isPure_link : (handling .link Handler.link).IsPure fun _ m =>
    "<a href='".toList ++ Url.hide (m.group 2) ++ "'>".toList ++ m.group 1 ++ "</a>".toList :=
  isPure_ofMatch _ _

theorem isPure_unorderedItem : (handling .unorderedItem Handler.unorderedItem).IsPure fun _ m =>
    Handler.singleItem "ul".toList (m.group 1) :=
  isPure_ofMatch _ _

theorem isPure_orderedItem : (handling .orderedItem Handler.orderedItem).IsPure fun _ m =>
    Handler.singleItem "ol".toList (m.group 1) :=
  isPure_ofMatch _ _

theorem isPure_blockquote : (handling .blockquote Handler.blockquote).IsPure fun _ m =>
    '\n' :: Handler.element "blockquote".toList (Text.trim (m.group 2)) :=
  isPure_ofMatch _ _

theorem isPure_wrapping : wrapping.IsPure fun _ m => Handler.paragraphLine (m.group 1) :=
  isPure_ofMatch _ _

theorem isPure_linkTag : (handling .linkTag Handler.unescapeLink).IsPure fun _ m =>
    "<a href='".toList ++ Url.reveal (m.group 1) ++ "'>".toList :=
  isPure_ofMatch _ _

theorem isPure_imageTag : (handling .imageTag Handler.unescapeImage).IsPure fun _ m =>
    "<img src='".toList ++ Url.reveal (m.group 1) ++ ['\''] :=
  isPure_ofMatch _ _

/-- A rule whose template is an element around a reference. -/
theorem isPure_rewriting_element (p : Pattern) {template : String} {name : Text} {d : Char}
    (h : template.toList = '<' :: name ++ ['>'] ++ '\\' :: d :: ("</".toList ++ name ++ ['>']))
    (hname : name.all (!Template.isSign ·)) (hd : d.isDigit) :
    (rewriting p template).IsPure fun _ m => Handler.element name (m.group (Text.decimal [d])) := by
  have hname' : ∀ c ∈ name, Template.isSign c = false := fun c hc => by
    simpa using List.all_eq_true.1 hname c hc
  have hopening : ∀ c ∈ '<' :: name ++ ['>'], Template.isSign c = false := by
    refine List.forall_mem_cons.2 ⟨rfl, ?_⟩
    exact List.forall_mem_append.2 ⟨hname', List.forall_mem_singleton.2 rfl⟩
  have hclosing : ∀ c ∈ "</".toList ++ name ++ ['>'], Template.isSign c = false := by
    refine List.forall_mem_cons.2 ⟨rfl, List.forall_mem_cons.2 ⟨rfl, ?_⟩⟩
    exact List.forall_mem_append.2 ⟨hname', List.forall_mem_singleton.2 rfl⟩
  have hsegments : (⟨template.toList⟩ : Template).segments =
      ('<' :: name ++ ['>']).map .char ++
        Template.Segment.group (Text.decimal [d]) :: ("</".toList ++ name ++ ['>']).map .char := by
    rw [h]
    refine Template.segments_reference hopening hd hclosing fun c hc => ?_
    obtain rfl : '<' = c := Option.some.inj hc
    rfl
  intro m cx
  refine Prod.ext ?_ rfl
  have hexpand := Template.expand_of_segments hsegments m
  have helement : Handler.element name (m.group (Text.decimal [d])) =
      '<' :: name ++ ['>'] ++ m.group (Text.decimal [d]) ++ ("</".toList ++ name ++ ['>']) := by
    simp [Handler.element]
  exact hexpand.trans helement.symm

theorem isPure_strong : (rewriting .strong "<strong>\\2</strong>").IsPure fun _ m =>
    Handler.element "strong".toList (m.group 2) :=
  isPure_rewriting_element (d := '2') _ rfl rfl rfl

theorem isPure_emphasis : (rewriting .emphasis "<em>\\2</em>").IsPure fun _ m =>
    Handler.element "em".toList (m.group 2) :=
  isPure_rewriting_element (d := '2') _ rfl rfl rfl

theorem isPure_deleted : (rewriting .deleted "<del>\\2</del>").IsPure fun _ m =>
    Handler.element "del".toList (m.group 2) :=
  isPure_rewriting_element (d := '2') _ rfl rfl rfl

theorem isPure_quotation : (rewriting .quotation "<q>\\1</q>").IsPure fun _ m =>
    Handler.element ['q'] (m.group 1) :=
  isPure_rewriting_element (d := '1') _ rfl rfl rfl

theorem isPure_inlineCode : (rewriting .inlineCode "<code>\\1</code>").IsPure fun _ m =>
    Handler.element "code".toList (m.group 1) :=
  isPure_rewriting_element (d := '1') _ rfl rfl rfl

/-- A rule whose template has no signs. -/
theorem isPure_rewriting_text (p : Pattern) {template : String}
    (h : template.toList.all (!Template.isSign ·)) :
    (rewriting p template).IsPure fun _ _ => template.toList := by
  intro m cx
  refine Prod.ext ?_ rfl
  have hsigns : ∀ c ∈ template.toList, Template.isSign c = false := fun c hc => by
    simpa using List.all_eq_true.1 h c hc
  show (Template.segments ⟨template.toList⟩).flatMap (·.expand m) = _
  rw [Template.segments_text hsigns, Template.flatMap_expand_map_char]

theorem isPure_horizontalRule :
    (rewriting .horizontalRule "\n<hr />").IsPure fun _ _ => "\n<hr />".toList :=
  isPure_rewriting_text _ rfl

theorem isPure_adjacentUnordered :
    (rewriting .adjacentUnordered "").IsPure fun _ _ => [] :=
  isPure_rewriting_text _ rfl

theorem isPure_adjacentOrdered : (rewriting .adjacentOrdered "").IsPure fun _ _ => [] :=
  isPure_rewriting_text _ rfl

theorem isPure_adjacentBlockquotes :
    (rewriting .adjacentBlockquotes "\n").IsPure fun _ _ => ['\n'] :=
  isPure_rewriting_text _ rfl

theorem pass_merging (o : Options) (d : Text) :
    merging.pass o d = Pattern.adjacentBlockquotes.rewriteFrom (fun _ => ['\n']) none
      (Pattern.adjacentOrdered.rewriteFrom (fun _ => []) none
        (Pattern.adjacentUnordered.rewriteFrom (fun _ => []) none d)) := by
  rw [merging, pass_cons, pass_cons, pass_cons, pass_nil, isPure_adjacentUnordered.pass_eq,
    isPure_adjacentOrdered.pass_eq, isPure_adjacentBlockquotes.pass_eq]
  rfl

theorem isPure_setting : IsPure setting := by
  intro r hr
  simp only [setting, List.mem_cons, List.not_mem_nil, or_false] at hr
  rcases hr with rfl | rfl | rfl | rfl | rfl | rfl | rfl | rfl | rfl | rfl | rfl | rfl
  · exact ⟨_, isPure_header⟩
  · exact ⟨_, isPure_image⟩
  · exact ⟨_, isPure_link⟩
  · exact ⟨_, isPure_strong⟩
  · exact ⟨_, isPure_emphasis⟩
  · exact ⟨_, isPure_deleted⟩
  · exact ⟨_, isPure_quotation⟩
  · exact ⟨_, isPure_inlineCode⟩
  · exact ⟨_, isPure_unorderedItem⟩
  · exact ⟨_, isPure_orderedItem⟩
  · exact ⟨_, isPure_blockquote⟩
  · exact ⟨_, isPure_horizontalRule⟩

/-- The rule for headings. -/
def heading : Rule := handling .header Handler.header

/-- The rules for images and links. -/
def references : Table :=
  [handling .image Handler.image, handling .link Handler.link]

/-- The other rules that set what stands inside a line, and the blocks. -/
def behindReferences : Table :=
  setting.drop 3

theorem setting_eq : setting = heading :: references ++ behindReferences := rfl

/-- The rules that set lines: headings, items, quotes, and the lines across the page. -/
def lineRules : Table :=
  [handling .header Handler.header,
   handling .unorderedItem Handler.unorderedItem,
   handling .orderedItem Handler.orderedItem,
   handling .blockquote Handler.blockquote,
   rewriting .horizontalRule "\n<hr />"]

/-- Each rule for what stands inside a line needs one of these characters. -/
def spanChars : List Char :=
  "[*_~\"`".toList

/-- The rules before the one for paragraphs leave a document in which nothing stands inside a line, if
the rules that set lines do. -/
theorem pass_setting_eq_self {o : Options} {d : Text} (hchars : ∀ c ∈ spanChars, c ∉ d)
    (hlines : ∀ r ∈ lineRules, r.pass o d = d) : setting.pass o d = d := by
  have hspan {r : Rule} {ρ : Options → Match → Text} (hr : r.IsPure ρ)
      (hp : r.pattern.finder.IsProper) {ms : List Text} (hms : r.pattern.OpensWith ms)
      (hany : ms.all (·.any spanChars.elem)) : r.pass o d = d := by
    refine hr.pass_of_notMem hp hms o fun m hm => ?_
    obtain ⟨c, hc, hchar⟩ := List.any_eq_true.1 (List.all_eq_true.1 hany m hm)
    exact ⟨c, hc, hchars c (List.elem_iff.1 hchar)⟩
  have himage := hspan isPure_image Pattern.isProper_image Pattern.opensWith_image rfl
  have hlink := hspan isPure_link Pattern.isProper_link Pattern.opensWith_link rfl
  have hstrong := hspan isPure_strong (Pattern.isProper_finder_delimiter _)
    (Pattern.opensWith_delimiter _) rfl
  have hemphasis := hspan isPure_emphasis (Pattern.isProper_finder_delimiter _)
    (Pattern.opensWith_delimiter _) rfl
  have hdeleted := hspan isPure_deleted (Pattern.isProper_finder_delimiter _)
    (Pattern.opensWith_delimiter _) rfl
  have hquotation := hspan isPure_quotation Pattern.isProper_quotation Pattern.opensWith_quotation rfl
  have hcode := hspan isPure_inlineCode Pattern.isProper_inlineCode Pattern.opensWith_inlineCode rfl
  simp only [lineRules, List.forall_mem_cons] at hlines
  obtain ⟨hheader, hunordered, hordered, hquote, hrule, -⟩ := hlines
  rw [setting]
  simp only [pass_cons, pass_nil, hheader, himage, hlink, hstrong, hemphasis, hdeleted, hquotation,
    hcode, hunordered, hordered, hquote, hrule]

theorem isPure_merging : IsPure merging := by
  intro r hr
  simp only [merging, List.mem_cons, List.not_mem_nil, or_false] at hr
  rcases hr with rfl | rfl | rfl
  · exact ⟨_, isPure_adjacentUnordered⟩
  · exact ⟨_, isPure_adjacentOrdered⟩
  · exact ⟨_, isPure_adjacentBlockquotes⟩

theorem isPure_revealing : IsPure revealing := by
  intro r hr
  simp only [revealing, List.mem_cons, List.not_mem_nil, or_false] at hr
  rcases hr with rfl | rfl
  · exact ⟨_, isPure_linkTag⟩
  · exact ⟨_, isPure_imageTag⟩

/-- The rules between the first and the last one. -/
def between (o : Options) : Table :=
  setting ++ [wrapping] ++ (if o.mergeAdjacentBlocks then merging else []) ++ revealing

theorem pass_between (o : Options) (d : Text) :
    (between o).pass o d = revealing.pass o
      ((if o.mergeAdjacentBlocks then merging else []).pass o
        (wrapping.pass o (setting.pass o d))) := by
  rw [between, pass_append, pass_append, pass_append, pass_cons, pass_nil]

theorem beforeReinsertion_eq (o : Options) : beforeReinsertion o = extraction :: between o := rfl

theorem isPure_between (o : Options) : IsPure (between o) := by
  intro r hr
  simp only [between, List.mem_append, List.mem_singleton] at hr
  rcases hr with ((hr | rfl) | hr) | hr
  · exact isPure_setting r hr
  · exact ⟨_, isPure_wrapping⟩
  · split at hr
    · exact isPure_merging r hr
    · simp at hr
  · exact isPure_revealing r hr

end Table

end Markdown
