import MarkdownPage.Page.Template
import MarkdownPage.Proofs.Html.Entities
import MarkdownPage.Proofs.Html.Tags

/-!
The template of a page. Its values are escaped, so each one ends where the template goes on: a page
determines them, and its head has the same tags whatever they are.
-/

namespace MarkdownPage.Page

open Text Html

section Fixed

def beforeLang : List Piece := [.line "<!DOCTYPE html>".toList, .verbatim "<html lang=\"".toList]

def beforeTitle : List Piece :=
  [.line "\">".toList,
    .line "<head>".toList,
    .line "    <meta charset=\"UTF-8\">".toList,
    .line "    <meta name=\"viewport\" content=\"width=device-width, initial-scale=1.0\">".toList,
    .verbatim "    <title>".toList]

def behindTitle : List Piece := [.line "</title>".toList, .line "    <style>".toList]

def sheet : List Piece := (styleSheet.flatMap StyleRule.lines).map .line

def behindSheet : List Piece := [.line "    </style>".toList]

def headEnd : Text := "</head>".toList

def beforeContent : List Piece := [.line "<body>".toList, .verbatim "    ".toList]

def behindContent : List Piece := [.line "</body>".toList, .verbatim "</html>".toList]

end Fixed

/-- The head of a page before its closing tag, with the two values as they stand in it. -/
def headWith (lang title : Text) : Text :=
  Html.render beforeLang ++ lang ++ Html.render beforeTitle ++ title ++
    Html.render behindTitle ++ Html.render sheet ++ Html.render behindSheet

def bodyWith (content : Text) : Text :=
  '\n' :: (Html.render beforeContent ++ content ++ '\n' :: Html.render behindContent)

namespace Settings

variable (s : Settings) (content : Text) (found : Option Text)

def langText : Text := escapeAttribute s.lang

def titleText : Text := escapeText (s.titleFor found)

theorem head_eq : s.head found =
    beforeLang ++ ([.attributeValue .escaped s.lang] ++ (beforeTitle ++
      ([.text .escaped (s.titleFor found)] ++ behindTitle))) ++ sheet ++
        (behindSheet ++ [.line headEnd]) := rfl

theorem render_head : Html.render (s.head found) =
    headWith s.langText (s.titleText found) ++ headEnd ++ ['\n'] := by
  have hlang : Html.render [.attributeValue .escaped s.lang] = s.langText := List.append_nil _
  have htitle : Html.render [.text .escaped (s.titleFor found)] = s.titleText found :=
    List.append_nil _
  have hend : Html.render [.line headEnd] = headEnd ++ ['\n'] := List.append_nil _
  rw [head_eq]
  simp only [render_append, hlang, htitle, hend, headWith, List.append_assoc]

theorem render_body : '\n' :: Html.render (body content) = bodyWith content := by
  have hbody : body content = beforeContent ++ ([.line content] ++ behindContent) := rfl
  have hcontent : Html.render [.line content] = content ++ ['\n'] := List.append_nil _
  rw [hbody, render_append, render_append, hcontent, bodyWith]
  simp only [List.append_assoc, List.singleton_append]

theorem page_eq :
    s.page content found = headWith s.langText (s.titleText found) ++ headEnd ++
      bodyWith content := by
  rw [page, render_append, render_head, ← render_body, List.append_assoc, List.singleton_append]

end Settings

section Values

theorem lang_text_free (s : Settings) : ∀ c ∈ "\"<>".toList, c ∉ s.langText := by
  intro c hc
  obtain ⟨hsome, hother⟩ := attribute_reserved c hc
  exact escape_free attribute_entities hsome hother s.lang

theorem title_text_free (s : Settings) (found : Option Text) :
    ∀ c ∈ "<>".toList, c ∉ s.titleText found := by
  intro c hc
  obtain ⟨hsome, hother⟩ := text_reserved c hc
  exact escape_free text_entities hsome hother (s.titleFor found)

variable {lang lang' title title' content content' : Text}

/-- Where a text is cut at the first `c`, both parts are determined. -/
theorem first_cut_unique {c : Char} {s s' t t' : Text} (hs : c ∉ s) (hs' : c ∉ s')
    (h : s ++ c :: t = s' ++ c :: t') : s = s' ∧ t = t' := by
  obtain ⟨more, rfl, hmore⟩ := append_before hs h
  rw [List.mem_append, not_or] at hs'
  cases more with
  | nil => exact ⟨(List.append_nil s).symm, (List.cons.inj hmore).2⟩
  | cons d more =>
    obtain ⟨rfl, -⟩ := List.cons.inj hmore
    exact absurd List.mem_cons_self hs'.2

/-- The first value ends before the first quote, and the second one before the first angle bracket
behind that. -/
theorem page_text_injective (hlang : '"' ∉ lang) (hlang' : '"' ∉ lang') (htitle : '<' ∉ title)
    (htitle' : '<' ∉ title')
    (h : headWith lang title ++ headEnd ++ bodyWith content =
      headWith lang' title' ++ headEnd ++ bodyWith content') :
    lang = lang' ∧ title = title' ∧ content = content' := by
  obtain ⟨afterLang, hafterLang⟩ : ∃ t, Html.render beforeTitle = '"' :: t := ⟨_, rfl⟩
  obtain ⟨afterTitle, hafterTitle⟩ : ∃ t, Html.render behindTitle = '<' :: t := ⟨_, rfl⟩
  simp only [headWith, hafterLang, hafterTitle, List.append_assoc, List.cons_append,
    List.append_cancel_left_eq] at h
  obtain ⟨rfl, hbehindLang⟩ := first_cut_unique hlang hlang' h
  have htitles := List.append_cancel_left hbehindLang
  obtain ⟨rfl, hbehindTitle⟩ := first_cut_unique htitle htitle' htitles
  refine ⟨rfl, rfl, ?_⟩
  simpa [bodyWith] using hbehindTitle

theorem page_inj_iff {s s' : Settings} {found found' : Option Text} :
    s.page content found = s'.page content' found' ↔
      s.lang = s'.lang ∧ s.titleFor found = s'.titleFor found' ∧ content = content' := by
  constructor
  · intro h
    rw [Settings.page_eq, Settings.page_eq] at h
    obtain ⟨hlang, htitle, hcontent⟩ := page_text_injective
      (lang_text_free s '"' (by decide)) (lang_text_free s' '"' (by decide))
      (title_text_free s found '<' (by decide)) (title_text_free s' found' '<' (by decide)) h
    exact ⟨escape_injective attribute_entities hlang, escape_injective text_entities htitle,
      hcontent⟩
  · rintro ⟨hlang, htitle, rfl⟩
    simp only [Settings.page_eq, Settings.langText, Settings.titleText, hlang, htitle]

end Values

section Head

variable {lang title : Text}

theorem sheet_plain : '<' ∉ Html.render sheet := by decide +kernel

/-- What the tags of the head begin with, but for the one that ends it. -/
def headTags : List Text :=
  ["<!DOCTYPE", "<html", "<head>", "<meta", "<title>", "</title>", "<style>", "</style>"].map
    String.toList

theorem head_tags_among (hlang : '<' ∉ lang) (htitle : '<' ∉ title) :
    TagsAmong headTags (headWith lang title) := by
  have hbeforeLang : TagsAmong headTags (Html.render beforeLang) := by decide +kernel
  have hbeforeTitle : TagsAmong headTags (Html.render beforeTitle) := by decide +kernel
  have hbehindTitle : TagsAmong headTags (Html.render behindTitle) := by decide +kernel
  have hbehindSheet : TagsAmong headTags (Html.render behindSheet) := by decide +kernel
  have hvalues := ((hbeforeLang.append (tags_among_plain hlang)).append hbeforeTitle).append
    (tags_among_plain htitle)
  exact ((hvalues.append hbehindTitle).append (tags_among_plain sheet_plain)).append hbehindSheet

def tagsBehind : List Text :=
  ["head", "meta charset=\"UTF-8\"",
    "meta name=\"viewport\" content=\"width=device-width, initial-scale=1.0\"",
    "title", "/title", "style", "/style", "/head"].map String.toList

def tagsWith (lang : Text) : List Text :=
  "!DOCTYPE html".toList :: ("html lang=\"".toList ++ lang ++ "\"".toList) :: tagsBehind

theorem tags_of_head (hopen : '<' ∉ lang) (hclose : '>' ∉ lang) (htitle : '<' ∉ title) :
    tagsIn (headWith lang title ++ headEnd) = tagsWith lang := by
  let first : Text := Html.render [.line "<!DOCTYPE html>".toList]
  let second : Text := (Html.render beforeTitle).drop 2
  have hbeforeLang : Html.render beforeLang = first ++ '<' :: "html lang=\"".toList := by
    decide +kernel
  have hbeforeTitle : Html.render beforeTitle = "\"".toList ++ '>' :: second := by decide +kernel
  have hsplit : headWith lang title ++ headEnd =
      first ++ '<' :: ("html lang=\"".toList ++ lang ++ "\"".toList ++ '>' ::
        (second ++ (title ++ (Html.render behindTitle ++
          (Html.render sheet ++ (Html.render behindSheet ++ headEnd)))))) := by
    rw [headWith, hbeforeLang, hbeforeTitle]
    simp only [List.append_assoc, List.cons_append]
  have hfirst : TagsClosed first := by decide +kernel
  have hsecond : TagsClosed second := by decide +kernel
  have hbehind : TagsClosed (Html.render behindTitle) := by decide +kernel
  have htagsFirst : tagsIn first = ["!DOCTYPE html".toList] := by decide +kernel
  have htagsOthers : tagsIn second ++ (tagsIn (Html.render behindTitle) ++
      tagsIn (Html.render behindSheet ++ headEnd)) = tagsBehind := by decide +kernel
  rw [hsplit, tags_in_append hfirst, tags_in_tag (by simp [hopen]) (by simp [hclose]),
    tags_in_append hsecond, tags_in_plain_append htitle, tags_in_append hbehind,
    tags_in_plain_append sheet_plain, htagsFirst, htagsOthers]
  rfl

/-- The head of the page is that of the template. Its values hold nothing that ends them or begins a
tag, it goes as far as the first tag that ends a head, and it has the tags of the template. -/
structure HeadSealed (lang title page : Text) : Prop where
  lang_free : ∀ c ∈ "\"<>".toList, c ∉ lang
  title_free : ∀ c ∈ "<>".toList, c ∉ title
  begins : headWith lang title ++ headEnd <+: page
  ends : ∀ before behind, page = before ++ headEnd ++ behind → headWith lang title <+: before
  tags : tagsIn (headWith lang title ++ headEnd) = tagsWith lang

theorem head_sealed (s : Settings) (content : Text) (found : Option Text) :
    HeadSealed s.langText (s.titleText found) (s.page content found) where
  lang_free := lang_text_free s
  title_free := title_text_free s found
  begins := by
    rw [Settings.page_eq]
    exact List.prefix_append _ _
  ends before behind h := by
    have hamong := head_tags_among (lang_text_free s '<' (by decide))
      (title_text_free s found '<' (by decide))
    have hapart : Apart headTags headEnd := by decide
    rw [Settings.page_eq, List.append_assoc] at h
    exact hamong.prefix_of_append hapart h
  tags := tags_of_head (lang_text_free s '<' (by decide)) (lang_text_free s '>' (by decide))
    (title_text_free s found '<' (by decide))

/-- A page determines its values and its content, and none of them can be taken for a part of the
template's head. -/
theorem template_sealed :
    (∀ (s s' : Settings) (content content' : Text) (found found' : Option Text),
      s.page content found = s'.page content' found' ↔
        s.lang = s'.lang ∧ s.titleFor found = s'.titleFor found' ∧ content = content') ∧
    (∀ (s : Settings) (content : Text) (found : Option Text),
      HeadSealed (escapeAttribute s.lang) (escapeText (s.titleFor found)) (s.page content found)) ∧
    ∀ (e : Escaping) (s : Settings) (source : Text),
      HeadSealed (escapeAttribute s.lang)
        (escapeText (s.titleFor (Article.ofMarkdown e source).title)) (ofMarkdown e s source) :=
  ⟨fun _ _ _ _ _ _ => page_inj_iff, head_sealed,
    fun e s source => head_sealed s (Article.ofMarkdown e source).body _⟩

end Head

end MarkdownPage.Page
