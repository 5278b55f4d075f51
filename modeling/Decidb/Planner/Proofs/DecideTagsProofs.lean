import Decidb.Planner.DecideTags

/-!
# Tags are read back from the text

Every tag opens and closes with the delimiter and has none inside, so tags that were concatenated are told
apart again: searching and editing the text of an alias does what the same step does to the list of its tags.
-/

namespace Decidb

/-! ## Finding a pattern -/

theorem findText_of_prefix {pattern text : List Char} (h : pattern <+: text) : findText pattern text = some 0 := by
  cases text with
  | nil =>
    rw [List.prefix_nil.mp h]
    rfl
  | cons c text => rw [findText, if_pos (List.isPrefixOf_iff_prefix.mpr h)]

theorem findText_cons_of_not {pattern text : List Char} {c : Char} (h : ¬ pattern <+: c :: text) :
    findText pattern (c :: text) = (findText pattern text).map (· + 1) := by
  rw [findText, if_neg (by rwa [List.isPrefixOf_iff_prefix])]

/-- A pattern that starts nowhere in the first text is looked for behind it. -/
theorem findText_append {pattern before after : List Char}
    (h : ∀ start rest, before = start ++ rest → rest ≠ [] → ¬ pattern <+: rest ++ after) :
    findText pattern (before ++ after) = (findText pattern after).map (· + before.length) := by
  induction before with
  | nil => simp
  | cons c before ih =>
    have hrest := ih fun start rest heq => h (c :: start) rest (by rw [heq, List.cons_append])
    have hhere : ¬ pattern <+: c :: (before ++ after) := h [] (c :: before) rfl (List.cons_ne_nil _ _)
    rw [List.cons_append, findText_cons_of_not hhere, hrest, Option.map_map]
    rfl

theorem find?_reverse_range {p : Nat → Bool} {start bound : Nat} (hstart : p start = true) (hlt : start < bound)
    (h : ∀ i, start < i → i < bound → p i = false) : (List.range bound).reverse.find? p = some start := by
  induction bound with
  | zero => omega
  | succ bound ih =>
    rw [List.range_succ, List.reverse_append, List.reverse_singleton, List.singleton_append]
    by_cases heq : start = bound
    · subst heq
      rw [List.find?_cons_of_pos hstart]
    · have hbound := h bound (by omega) (by omega)
      rw [List.find?_cons_of_neg (by rw [hbound]; exact Bool.false_ne_true)]
      exact ih (by omega) fun i hlow hhigh => h i hlow (by omega)

/-! ## Between delimiters -/

/-- A text with no delimiter in it. -/
def Undelimited (text : List Char) : Prop := ¬ tagDelimiter <:+: text

/-- The delimiter and no third underscore. -/
def OpensTag (pattern : List Char) : Prop := ∃ c rest, pattern = '_' :: '_' :: c :: rest ∧ c ≠ '_'

/-- Where a name or a tag ends: at the end of the text or before a delimiter. -/
def EndsHere (text : List Char) : Prop := text = [] ∨ tagDelimiter <+: text

theorem Undelimited.of_append {start rest : List Char} (h : Undelimited (start ++ rest)) : Undelimited rest :=
  fun hin => h (hin.trans (List.suffix_append start rest).isInfix)

theorem Undelimited.tail {c : Char} {text : List Char} (h : Undelimited (c :: text)) : Undelimited text :=
  fun hin => h (List.infix_cons hin)

theorem not_undelimited_cons_cons (text : List Char) : ¬ Undelimited ('_' :: '_' :: text) :=
  fun h => h (List.prefix_append tagDelimiter text).isInfix

theorem DecideTag.spelling_eq (tag : DecideTag) : tag.spelling = '_' :: '_' :: (tag.body ++ tagDelimiter) := by
  simp [DecideTag.spelling, tagDelimiter]

theorem DecideTag.length_spelling (tag : DecideTag) : tag.spelling.length = tag.body.length + 4 := by
  simp [DecideTag.spelling, tagDelimiter]

theorem endsHere_spelling (tag : DecideTag) (text : List Char) : EndsHere (tag.spelling ++ text) := by
  refine .inr ?_
  rw [DecideTag.spelling, List.append_assoc, List.append_assoc]
  exact List.prefix_append _ _

/-- A tag does not open inside a text without a delimiter. -/
theorem OpensTag.not_prefix_undelimited {pattern text after : List Char} (h : OpensTag pattern)
    (htext : Undelimited text) (hne : text ≠ []) (hafter : EndsHere after) : ¬ pattern <+: text ++ after := by
  obtain ⟨c, pattern, rfl, hc⟩ := h
  rintro ⟨rest, hrest⟩
  cases text with
  | nil => exact hne rfl
  | cons a text =>
    cases text with
    | nil =>
      rcases hafter with rfl | ⟨after, rfl⟩
      · simp at hrest
      · simp [tagDelimiter, hc] at hrest
    | cons b text =>
      simp only [List.cons_append, List.cons.injEq] at hrest
      obtain ⟨rfl, rfl, -⟩ := hrest
      exact not_undelimited_cons_cons text htext

theorem OpensTag.findText_undelimited {pattern text after : List Char} (h : OpensTag pattern)
    (htext : Undelimited text) (hafter : EndsHere after) :
    findText pattern (text ++ after) = (findText pattern after).map (· + text.length) := by
  refine findText_append fun start rest heq hne => ?_
  rw [heq] at htext
  exact h.not_prefix_undelimited htext.of_append hne hafter

/-- A tag does not open at the delimiter that closes another one. -/
theorem OpensTag.not_prefix_closing {pattern after : List Char} (h : OpensTag pattern) (hafter : EndsHere after) :
    ¬ pattern <+: '_' :: '_' :: after ∧ ¬ pattern <+: '_' :: after := by
  obtain ⟨c, pattern, rfl, hc⟩ := h
  rcases hafter with rfl | ⟨after, rfl⟩
  · constructor <;> rintro ⟨rest, hrest⟩ <;> simp at hrest
  · constructor <;> rintro ⟨rest, hrest⟩ <;> simp [tagDelimiter, hc] at hrest

theorem OpensTag.not_prefix_body {pattern text : List Char} (h : OpensTag pattern) (tag : DecideTag) :
    ¬ pattern <+: '_' :: (tag.body ++ text) := by
  obtain ⟨c, pattern, rfl, hc⟩ := h
  rintro ⟨rest, hrest⟩
  have hopens := tag.isTagBody.opens
  have hne := tag.isTagBody.ne_nil
  cases hbody : tag.body with
  | nil => exact hne hbody
  | cons a body =>
    rw [hbody] at hopens hrest
    simp only [List.cons_append, List.cons.injEq, true_and] at hrest
    exact hopens (congrArg some hrest.1.symm)

/-- What opens a tag and is not at this one is looked for behind it. -/
theorem OpensTag.findText_spelling {pattern after : List Char} (h : OpensTag pattern) (tag : DecideTag)
    (hafter : EndsHere after) (hne : ¬ pattern <+: tag.spelling ++ after) :
    findText pattern (tag.spelling ++ after) = (findText pattern after).map (· + tag.spelling.length) := by
  have hclosing := h.not_prefix_closing hafter
  have hspelling : tag.spelling ++ after = '_' :: '_' :: (tag.body ++ '_' :: '_' :: after) := by
    simp [DecideTag.spelling, tagDelimiter]
  have hdelimiter : EndsHere ('_' :: '_' :: after) := .inr (List.prefix_append tagDelimiter after)
  rw [hspelling] at hne ⊢
  rw [findText_cons_of_not hne, findText_cons_of_not (h.not_prefix_body tag),
    h.findText_undelimited tag.isTagBody.undelimited hdelimiter,
    findText_cons_of_not hclosing.1, findText_cons_of_not hclosing.2, tag.length_spelling]
  simp only [Option.map_map]
  congr 1
  funext i
  simp only [Function.comp_apply]
  omega

theorem endsHere_tags (tags : List DecideTag) {after : List Char} (hafter : EndsHere after) :
    EndsHere (tags.flatMap DecideTag.spelling ++ after) := by
  cases tags with
  | nil => exact hafter
  | cons tag tags =>
    rw [List.flatMap_cons, List.append_assoc]
    exact endsHere_spelling tag _

theorem OpensTag.findText_tags {pattern after : List Char} (h : OpensTag pattern) (tags : List DecideTag)
    (hafter : EndsHere after) (hne : ∀ tag ∈ tags, ∀ text, ¬ pattern <+: tag.spelling ++ text) :
    findText pattern (tags.flatMap DecideTag.spelling ++ after) =
      (findText pattern after).map (· + (tags.flatMap DecideTag.spelling).length) := by
  induction tags with
  | nil => simp
  | cons tag tags ih =>
    rw [List.flatMap_cons, List.append_assoc,
      h.findText_spelling tag (endsHere_tags tags hafter) (hne tag List.mem_cons_self _),
      ih fun other hmem => hne other (List.mem_cons_of_mem _ hmem), Option.map_map, List.length_append]
    congr 1
    funext i
    simp only [Function.comp_apply]
    omega

/-! ## One tag is not another -/

/-- A body ends at the first delimiter behind it. -/
theorem body_eq_of_prefix (body : List Char) : ∀ other after : List Char, Undelimited body → Undelimited other →
    body.getLast? ≠ some '_' → other.getLast? ≠ some '_' →
      body ++ tagDelimiter <+: other ++ (tagDelimiter ++ after) → body = other := by
  induction body with
  | nil =>
    intro other after _ hother _ hcloses hprefix
    cases other with
    | nil => rfl
    | cons a other =>
      obtain ⟨rest, hrest⟩ := hprefix
      cases other with
      | nil =>
        simp only [tagDelimiter, List.nil_append, List.cons_append, List.cons.injEq] at hrest
        exact absurd (congrArg some hrest.1.symm) hcloses
      | cons b other =>
        simp only [tagDelimiter, List.nil_append, List.cons_append, List.cons.injEq] at hrest
        obtain ⟨rfl, rfl, -⟩ := hrest
        exact absurd hother (not_undelimited_cons_cons other)
  | cons c body ih =>
    intro other after hbody hother hcloses hcloses' hprefix
    cases other with
    | nil =>
      obtain ⟨rest, hrest⟩ := hprefix
      cases body with
      | nil =>
        simp only [tagDelimiter, List.nil_append, List.cons_append, List.cons.injEq] at hrest
        exact absurd (congrArg some hrest.1) hcloses
      | cons b body =>
        simp only [tagDelimiter, List.nil_append, List.cons_append, List.cons.injEq] at hrest
        obtain ⟨rfl, rfl, -⟩ := hrest
        exact absurd hbody (not_undelimited_cons_cons body)
    | cons a other =>
      rw [List.cons_append, List.cons_append] at hprefix
      obtain ⟨rfl, htail⟩ := List.cons_prefix_cons.mp hprefix
      have hlast : ∀ {d : Char} {text : List Char}, (d :: text).getLast? ≠ some '_' → text.getLast? ≠ some '_' := by
        intro d text h
        cases text with
        | nil => exact fun hnone => by cases hnone
        | cons e text => rwa [List.getLast?_cons_cons] at h
      rw [ih other after hbody.tail hother.tail (hlast hcloses) (hlast hcloses') htail]

theorem DecideTag.eq_of_spelling_prefix {tag other : DecideTag} {text : List Char}
    (h : tag.spelling <+: other.spelling ++ text) : tag = other := by
  have hbody : tag.body = other.body := by
    rw [DecideTag.spelling, DecideTag.spelling, List.append_assoc, List.append_assoc, List.append_assoc] at h
    exact body_eq_of_prefix tag.body other.body text tag.isTagBody.undelimited other.isTagBody.undelimited
      tag.isTagBody.closes other.isTagBody.closes ((List.prefix_append_right_inj tagDelimiter).mp h)
  cases tag
  cases other
  cases hbody
  rfl

theorem DecideTag.opensTag (tag : DecideTag) : OpensTag tag.spelling := by
  have hopens := tag.isTagBody.opens
  cases hbody : tag.body with
  | nil => exact absurd hbody tag.isTagBody.ne_nil
  | cons c body =>
    rw [hbody] at hopens
    refine ⟨c, body ++ tagDelimiter, ?_, fun hc => hopens (congrArg some hc)⟩
    simp [DecideTag.spelling, hbody, tagDelimiter]

namespace NodeAlias

/-! ## Searching an alias -/

/-- Where the first of some tags is. -/
theorem findText_spelling_of_mem {name : List Char} (hname : Undelimited name) {before after : List DecideTag}
    {tag : DecideTag} (hbefore : tag ∉ before) :
    findText tag.spelling (spelling ⟨name, before ++ tag :: after⟩) =
      some (name ++ before.flatMap DecideTag.spelling).length := by
  have hrest := endsHere_spelling tag (after.flatMap DecideTag.spelling)
  rw [spelling, List.flatMap_append, List.flatMap_cons,
    tag.opensTag.findText_undelimited hname (endsHere_tags before hrest),
    tag.opensTag.findText_tags before hrest fun other hmem text hprefix => ?_,
    findText_of_prefix (List.prefix_append _ _), List.length_append]
  · simp only [Option.map_some, Nat.zero_add]
    rw [Nat.add_comm]
  · exact hbefore (DecideTag.eq_of_spelling_prefix hprefix ▸ hmem)

theorem findText_spelling_of_notMem (nodeAlias : NodeAlias) (hname : Undelimited nodeAlias.name) {tag : DecideTag}
    (h : tag ∉ nodeAlias.tags) : findText tag.spelling nodeAlias.spelling = none := by
  have hnil : findText tag.spelling [] = none := by
    obtain ⟨c, rest, heq, -⟩ := tag.opensTag
    rw [heq]
    rfl
  have htags := tag.opensTag.findText_tags nodeAlias.tags (.inl rfl) fun other hmem text hprefix =>
    h (DecideTag.eq_of_spelling_prefix hprefix ▸ hmem)
  rw [List.append_nil, hnil] at htags
  have hends := endsHere_tags nodeAlias.tags (.inl rfl)
  rw [List.append_nil] at hends
  rw [spelling, tag.opensTag.findText_undelimited hname hends, htags]
  rfl

theorem hasDecideTag_spelling {nodeAlias : NodeAlias} (hname : Undelimited nodeAlias.name) (tag : DecideTag) :
    hasDecideTag nodeAlias.spelling tag.spelling = nodeAlias.hasTag tag := by
  by_cases hmem : tag ∈ nodeAlias.tags
  · obtain ⟨before, after, htags, hbefore⟩ := List.eq_append_cons_of_mem hmem
    obtain ⟨name, tags⟩ := nodeAlias
    subst htags
    rw [hasDecideTag, findText_spelling_of_mem hname hbefore, hasTag, decide_eq_true hmem]
    rfl
  · rw [hasDecideTag, findText_spelling_of_notMem nodeAlias hname hmem, hasTag, decide_eq_false hmem]
    rfl

/-! ## Removing a tag -/

theorem eraseText_middle (before middle after : List Char) :
    eraseText (before ++ (middle ++ after)) before.length middle.length = before ++ after := by
  rw [eraseText, List.take_left, ← List.drop_drop, List.drop_left, List.drop_left]

theorem eraseText_spelling (name : List Char) (before after : List DecideTag) (tag : DecideTag) :
    eraseText (spelling ⟨name, before ++ tag :: after⟩) (name ++ before.flatMap DecideTag.spelling).length
      tag.spelling.length = spelling ⟨name, before ++ after⟩ := by
  have herase := eraseText_middle (name ++ before.flatMap DecideTag.spelling) tag.spelling
    (after.flatMap DecideTag.spelling)
  rw [List.append_assoc, List.append_assoc] at herase
  rw [spelling, spelling, List.flatMap_append, List.flatMap_append, List.flatMap_cons]
  exact herase

/-- One tag goes at a time, the first one first. -/
theorem removeDecideTagLoop_spelling {name : List Char} (hname : Undelimited name) (tag : DecideTag) (fuel : Nat) :
    ∀ tags : List DecideTag, tags.length ≤ fuel →
      removeDecideTagLoop tag.spelling fuel (spelling ⟨name, tags⟩) = spelling ⟨name, tags.filter (· ≠ tag)⟩ := by
  induction fuel with
  | zero =>
    intro tags hle
    obtain rfl := List.eq_nil_of_length_eq_zero (Nat.le_zero.mp hle)
    rfl
  | succ fuel ih =>
    intro tags hle
    rw [removeDecideTagLoop]
    by_cases hmem : tag ∈ tags
    · obtain ⟨before, after, rfl, hbefore⟩ := List.eq_append_cons_of_mem hmem
      have hle : (before ++ after).length ≤ fuel := by
        rw [List.length_append, List.length_cons] at hle
        rw [List.length_append]
        omega
      rw [findText_spelling_of_mem hname hbefore]
      dsimp only
      rw [eraseText_spelling, ih (before ++ after) hle]
      simp
    · have hfilter : tags.filter (· ≠ tag) = tags :=
        List.filter_eq_self.mpr fun other hother => decide_eq_true fun heq => hmem (heq ▸ hother)
      rw [findText_spelling_of_notMem ⟨name, tags⟩ hname hmem, hfilter]

theorem length_tags_le_spelling (nodeAlias : NodeAlias) : nodeAlias.tags.length ≤ nodeAlias.spelling.length := by
  obtain ⟨name, tags⟩ := nodeAlias
  rw [spelling, List.length_append]
  refine le_trans ?_ (Nat.le_add_left _ _)
  show tags.length ≤ (tags.flatMap DecideTag.spelling).length
  induction tags with
  | nil => exact Nat.le_refl 0
  | cons tag tags ih =>
    rw [List.flatMap_cons, List.length_append, List.length_cons, tag.length_spelling]
    omega

theorem removeDecideTag_spelling {nodeAlias : NodeAlias} (hname : Undelimited nodeAlias.name) (tag : DecideTag) :
    removeDecideTag nodeAlias.spelling tag.spelling = (nodeAlias.removeTag tag).spelling :=
  removeDecideTagLoop_spelling hname tag _ nodeAlias.tags nodeAlias.length_tags_le_spelling

theorem addDecideTag_spelling (nodeAlias : NodeAlias) (tag : DecideTag) :
    addDecideTag nodeAlias.spelling tag.spelling = (nodeAlias.addTag tag).spelling := by
  simp [addDecideTag, addTag, spelling]

/-! ## Stripping the tags -/

/-- A delimiter does not begin inside a text that has none and does not end with an underscore. -/
theorem not_delimiter_prefix {text after : List Char} (htext : Undelimited text) (hne : text ≠ [])
    (hcloses : text.getLast? ≠ some '_') : ¬ tagDelimiter <+: text ++ after := by
  rintro ⟨rest, hrest⟩
  cases text with
  | nil => exact hne rfl
  | cons a text =>
    simp only [tagDelimiter, List.cons_append, List.nil_append, List.cons.injEq] at hrest
    obtain ⟨rfl, hrest⟩ := hrest
    cases text with
    | nil => exact hcloses rfl
    | cons b text =>
      simp only [List.cons_append, List.cons.injEq] at hrest
      obtain ⟨rfl, -⟩ := hrest
      exact not_undelimited_cons_cons text htext

theorem rfindText_eq {pattern text : List Char} {start last : Nat} (hstart : start ≤ last)
    (hle : start ≤ text.length) (hhere : pattern <+: text.drop start)
    (h : ∀ i, start < i → i ≤ last → ¬ pattern <+: text.drop i) : rfindText pattern text last = some start := by
  refine find?_reverse_range (List.isPrefixOf_iff_prefix.mpr hhere) (by omega) fun i hlow hhigh => ?_
  rw [Bool.eq_false_iff, ne_eq, List.isPrefixOf_iff_prefix]
  exact h i hlow (by omega)

/-- The last tag opens where the delimiter before its closing one is. -/
theorem rfindText_spelling (before : List Char) (tag : DecideTag) :
    rfindText tagDelimiter (before ++ tag.spelling) ((before ++ tag.spelling).length - 3) = some before.length := by
  have hdrop : ∀ k, (before ++ tag.spelling).drop (before.length + k) = tag.spelling.drop k := by
    intro k
    rw [← List.drop_drop, List.drop_left]
  rw [List.length_append, tag.length_spelling]
  refine rfindText_eq (by omega) (by rw [List.length_append]; omega) ?_ fun i hlow hhigh => ?_
  · rw [List.drop_left, DecideTag.spelling, List.append_assoc]
    exact List.prefix_append _ _
  · obtain ⟨k, rfl⟩ : ∃ k, i = before.length + (k + 1) := ⟨i - before.length - 1, by omega⟩
    rw [hdrop]
    rw [tag.spelling_eq, List.drop_succ_cons]
    cases k with
    | zero =>
      rintro ⟨rest, hrest⟩
      have hopens := tag.isTagBody.opens
      cases hbody : tag.body with
      | nil => exact tag.isTagBody.ne_nil hbody
      | cons c body =>
        rw [hbody] at hopens hrest
        simp only [tagDelimiter, List.drop_zero, List.cons_append, List.cons.injEq, true_and] at hrest
        exact hopens (congrArg some hrest.1.symm)
    | succ k =>
      have hk : k < tag.body.length := by omega
      have hbody := tag.isTagBody.undelimited
      rw [← List.take_append_drop k tag.body] at hbody
      rw [List.drop_succ_cons, List.drop_append_of_le_length (Nat.le_of_lt hk)]
      refine not_delimiter_prefix (Undelimited.of_append hbody) (fun hnil => ?_) ?_
      · have hlen := List.drop_eq_nil_iff.mp hnil
        omega
      · rw [List.getLast?_drop, if_neg (by omega)]
        exact tag.isTagBody.closes

theorem stripDecideTagsLoop_spelling {name : List Char} (hname : Undelimited name) (fuel : Nat) :
    ∀ tags : List DecideTag, tags.length ≤ fuel → stripDecideTagsLoop fuel (spelling ⟨name, tags⟩) = name := by
  induction fuel with
  | zero =>
    intro tags hle
    obtain rfl := List.eq_nil_of_length_eq_zero (Nat.le_zero.mp hle)
    exact List.append_nil name
  | succ fuel ih =>
    intro tags hle
    rw [stripDecideTagsLoop]
    rcases List.eq_nil_or_concat tags with rfl | ⟨tags, tag, rfl⟩
    · have hspelling : spelling ⟨name, []⟩ = name := List.append_nil name
      rw [hspelling, if_neg]
      rintro ⟨-, hdrop⟩
      exact hname (hdrop ▸ (List.drop_suffix _ _).isInfix)
    · rw [List.concat_eq_append] at hle ⊢
      have hspelling : spelling ⟨name, tags ++ [tag]⟩ = spelling ⟨name, tags⟩ ++ tag.spelling := by
        simp [spelling]
      have hends : (spelling ⟨name, tags⟩ ++ tag.spelling).drop
          ((spelling ⟨name, tags⟩ ++ tag.spelling).length - 2) = tagDelimiter := by
        have hassoc : spelling ⟨name, tags⟩ ++ tag.spelling =
            (spelling ⟨name, tags⟩ ++ (tagDelimiter ++ tag.body)) ++ tagDelimiter := by
          simp [DecideTag.spelling]
        rw [hassoc, List.length_append]
        exact List.drop_left
      rw [hspelling, if_pos ⟨by rw [List.length_append, tag.length_spelling]; omega, hends⟩, rfindText_spelling]
      dsimp only
      rw [List.take_left]
      rw [List.length_append, List.length_singleton] at hle
      exact ih tags (by omega)

theorem stripDecideTags_spelling {nodeAlias : NodeAlias} (hname : Undelimited nodeAlias.name) :
    stripDecideTags nodeAlias.spelling = nodeAlias.name :=
  stripDecideTagsLoop_spelling hname _ nodeAlias.tags nodeAlias.length_tags_le_spelling

/-! ## No two aliases read alike -/

theorem tags_eq_of_spelling (tags : List DecideTag) : ∀ others : List DecideTag,
    tags.flatMap DecideTag.spelling = others.flatMap DecideTag.spelling → tags = others := by
  have hne : ∀ tag : DecideTag, tag.spelling ≠ [] := fun tag hnil => by cases hnil
  induction tags with
  | nil =>
    intro others h
    cases others with
    | nil => rfl
    | cons other others => exact absurd (List.append_eq_nil_iff.mp h.symm).1 (hne other)
  | cons tag tags ih =>
    intro others h
    cases others with
    | nil => exact absurd (List.append_eq_nil_iff.mp h).1 (hne tag)
    | cons other others =>
      rw [List.flatMap_cons, List.flatMap_cons] at h
      obtain rfl : tag = other := DecideTag.eq_of_spelling_prefix (h ▸ List.prefix_append _ _)
      rw [ih others (List.append_cancel_left h)]

theorem eq_of_spelling {nodeAlias other : NodeAlias} (hname : Undelimited nodeAlias.name)
    (hother : Undelimited other.name) (h : other.spelling = nodeAlias.spelling) : other = nodeAlias := by
  have hnames : other.name = nodeAlias.name := by
    rw [← stripDecideTags_spelling hname, ← stripDecideTags_spelling hother, h]
  obtain ⟨name, tags⟩ := nodeAlias
  obtain ⟨otherName, others⟩ := other
  obtain rfl : otherName = name := hnames
  rw [tags_eq_of_spelling others tags (List.append_cancel_left h)]

/-! ## Reading a payload -/

/-- What begins a tag's text opens one, and nothing else of the text can be taken for it. -/
theorem opensTag_append {tag : DecideTag} {opening payload : List Char} (hbody : tag.body = opening ++ payload)
    (hopening : opening ≠ []) : OpensTag (tagDelimiter ++ opening) := by
  have hopens := tag.isTagBody.opens
  cases opening with
  | nil => exact absurd rfl hopening
  | cons c opening =>
    rw [hbody] at hopens
    exact ⟨c, opening, rfl, fun hc => hopens (congrArg some hc)⟩

theorem not_prefix_spelling {tag : DecideTag} {opening : List Char} (hopening : Undelimited opening)
    (h : ¬ tagDelimiter ++ opening <+: tag.spelling) (text : List Char) :
    ¬ tagDelimiter ++ opening <+: tag.spelling ++ text := by
  intro hprefix
  rcases List.prefix_or_prefix_of_prefix hprefix (List.prefix_append tag.spelling text) with hshort | hlong
  · exact h hshort
  · rw [DecideTag.spelling, List.append_assoc] at hlong
    have hbody : tag.body ++ tagDelimiter <+: opening := (List.prefix_append_right_inj tagDelimiter).mp hlong
    exact hopening ((List.suffix_append tag.body tagDelimiter).isInfix.trans hbody.isInfix)

theorem findText_delimiter {text after : List Char} (htext : Undelimited text)
    (hcloses : text.getLast? ≠ some '_') :
    findText tagDelimiter (text ++ (tagDelimiter ++ after)) = some text.length := by
  rw [findText_append fun start rest heq hne => ?_, findText_of_prefix (List.prefix_append _ _), Option.map_some,
    Nat.zero_add]
  rw [heq] at htext hcloses
  rw [List.getLast?_append_of_ne_nil _ hne] at hcloses
  exact not_delimiter_prefix htext.of_append hne hcloses

theorem extractDecideTagPayload_spelling {name : List Char} (hname : Undelimited name)
    {before after : List DecideTag} {tag : DecideTag} {opening payload : List Char}
    (hbody : tag.body = opening ++ payload) (hopening : opening ≠ []) (hpayload : payload ≠ [])
    (hbefore : ∀ other ∈ before, ¬ tagDelimiter ++ opening <+: other.spelling) :
    extractDecideTagPayload (spelling ⟨name, before ++ tag :: after⟩) (tagDelimiter ++ opening) = some payload := by
  have hopens := opensTag_append hbody hopening
  have hundelimited := tag.isTagBody.undelimited
  have hcloses := tag.isTagBody.closes
  rw [hbody] at hundelimited hcloses
  rw [List.getLast?_append_of_ne_nil _ hpayload] at hcloses
  have hfirst : Undelimited opening :=
    fun hin => hundelimited (hin.trans (List.prefix_append opening payload).isInfix)
  have hrest := endsHere_spelling tag (after.flatMap DecideTag.spelling)
  have hspelling : tag.spelling ++ after.flatMap DecideTag.spelling =
      (tagDelimiter ++ opening) ++ (payload ++ (tagDelimiter ++ after.flatMap DecideTag.spelling)) := by
    simp [DecideTag.spelling, hbody]
  have hfind : findText (tagDelimiter ++ opening) (spelling ⟨name, before ++ tag :: after⟩) =
      some (name ++ before.flatMap DecideTag.spelling).length := by
    rw [spelling, List.flatMap_append, List.flatMap_cons,
      hopens.findText_undelimited hname (endsHere_tags before hrest),
      hopens.findText_tags before hrest fun other hmem => not_prefix_spelling hfirst (hbefore other hmem), hspelling,
      findText_of_prefix (List.prefix_append _ _), List.length_append]
    simp only [Option.map_some, Nat.zero_add]
    rw [Nat.add_comm]
  have hdrop : (spelling ⟨name, before ++ tag :: after⟩).drop
      ((name ++ before.flatMap DecideTag.spelling).length + (tagDelimiter ++ opening).length) =
      payload ++ (tagDelimiter ++ after.flatMap DecideTag.spelling) := by
    rw [spelling, List.flatMap_append, List.flatMap_cons, ← List.append_assoc, hspelling, ← List.drop_drop,
      List.drop_left, List.drop_left]
  have hne : payload.length ≠ 0 := fun hzero => hpayload (List.eq_nil_of_length_eq_zero hzero)
  rw [extractDecideTagPayload, hfind]
  dsimp only
  rw [hdrop, findText_delimiter (Undelimited.of_append hundelimited) hcloses]
  dsimp only
  rw [if_neg hne, List.take_left]

end NodeAlias

/-- The text of an alias carries its tags faithfully: whatever ordinary name they were appended to, as long as
it has no delimiter itself. -/
theorem decideTags_exact (nodeAlias : NodeAlias) (hname : Undelimited nodeAlias.name) (tag : DecideTag) :
    hasDecideTag nodeAlias.spelling tag.spelling = nodeAlias.hasTag tag ∧
      addDecideTag nodeAlias.spelling tag.spelling = (nodeAlias.addTag tag).spelling ∧
      removeDecideTag nodeAlias.spelling tag.spelling = (nodeAlias.removeTag tag).spelling ∧
      stripDecideTags nodeAlias.spelling = nodeAlias.name ∧
      (∀ other : NodeAlias, Undelimited other.name → other.spelling = nodeAlias.spelling → other = nodeAlias) ∧
      ∀ before after opening payload, nodeAlias.tags = before ++ tag :: after → tag.body = opening ++ payload →
        opening ≠ [] → payload ≠ [] → (∀ other ∈ before, ¬ tagDelimiter ++ opening <+: other.spelling) →
          extractDecideTagPayload nodeAlias.spelling (tagDelimiter ++ opening) = some payload := by
  refine ⟨NodeAlias.hasDecideTag_spelling hname tag, nodeAlias.addDecideTag_spelling tag,
    NodeAlias.removeDecideTag_spelling hname tag, NodeAlias.stripDecideTags_spelling hname,
    fun other hother h => NodeAlias.eq_of_spelling hname hother h, ?_⟩
  intro before after opening payload htags hbody hopening hpayload hbefore
  obtain ⟨name, tags⟩ := nodeAlias
  obtain rfl : tags = before ++ tag :: after := htags
  exact NodeAlias.extractDecideTagPayload_spelling hname hbody hopening hpayload hbefore

theorem isTagBody_sourceClause : IsTagBody "source_clause_0".toList := by decide

theorem isTagBody_whenConstraint : IsTagBody "when_constraint".toList := by decide

/-- `cost__when_constraint____source_clause_0__`. -/
def taggedCost : NodeAlias where
  name := "cost".toList
  tags := [⟨"when_constraint".toList, isTagBody_whenConstraint⟩, ⟨"source_clause_0".toList, isTagBody_sourceClause⟩]

theorem decideTags_exact_taggedCost :
    hasDecideTag taggedCost.spelling "__source_clause_0__".toList = true ∧
      removeDecideTag taggedCost.spelling "__source_clause_0__".toList = "cost__when_constraint__".toList ∧
      stripDecideTags taggedCost.spelling = "cost".toList ∧
      extractDecideTagPayload taggedCost.spelling "__source_clause_".toList = some "0".toList := by
  have hname : Undelimited taggedCost.name := by
    unfold Undelimited
    decide
  obtain ⟨hhas, -, hremove, hstrip, -, hpayload⟩ := decideTags_exact taggedCost hname
    ⟨"source_clause_0".toList, isTagBody_sourceClause⟩
  refine ⟨hhas, hremove, hstrip, ?_⟩
  exact hpayload [⟨"when_constraint".toList, isTagBody_whenConstraint⟩] [] "source_clause_".toList "0".toList rfl rfl
    (by decide) (by decide) (by decide)

end Decidb
