import MarkdownPage.Proofs.File.Volume
import MarkdownPage.Publish

/-!
Publishing on a volume. Either the page stands in the one file that the output path leads to, and
nothing else has changed, or nothing has changed at all. The source is kept, however the output path
comes to it, unless one of the two ways cannot be spelled out from the root.
-/

namespace MarkdownPage

open File Volume

section Actions

variable (v : Volume)

theorem run_lead_to_one_file (input output : Path) :
    (leadToOneFile input output : StateM Volume Bool).run v =
      (Path.same input output || v.leadAlike input output, v) := by
  rw [leadToOneFile]
  cases Path.same input output <;> rfl

def textAt (v : Volume) (p : Path) : Except Failure Text :=
  match v.read p with
  | .ok bytes =>
    match Text.ofBytes? bytes with
    | some t => .ok t
    | none => .error .notText
  | .error cause => .error cause

theorem run_read_text (p : Path) :
    (readText p : StateM Volume (Except Failure Text)).run v = (textAt v p, v) := by
  simp only [readText, Access.read, textAt, StateT.run_bind]
  cases hread : v.read p with
  | error cause => simp [hread]; rfl
  | ok bytes => cases htext : Text.ofBytes? bytes <;> simp [hread, htext] <;> rfl

theorem run_write (p : Path) (content : ByteArray) :
    (Access.write p content : StateM Volume (Except Failure Unit)).run v =
      match v.write p content with
      | .ok v' => (.ok (), v')
      | .error cause => (.error cause, v) := by
  simp only [Access.write]
  cases hwrite : v.write p content <;> simp [hwrite] <;> rfl

end Actions

def pageBytes (e : Html.Escaping) (s : Page.Settings) (source : Text) : ByteArray :=
  Text.toBytes (Page.ofMarkdown e s source)

/-- A run on a volume: its result, and the volume behind it. -/
def publishOn (e : Html.Escaping) (s : Page.Settings) (input output : Path) (v : Volume) :
    Except PublishError Published × Volume :=
  (publish e s input output : StateM Volume _).run v

/-- The paths are taken to name one file. -/
def Refused (v : Volume) (input output : Path) : Prop :=
  (Path.same input output || v.leadAlike input output) = true

section Run

variable {e : Html.Escaping} {s : Page.Settings} {input output : Path} {v : Volume}

theorem publish_on_refused (h : Refused v input output) :
    publishOn e s input output v = (.error (.overwritesSource output), v) := by
  rw [publishOn, publish, StateT.run_bind, run_lead_to_one_file, h]
  rfl

theorem publish_on_allowed (h : ¬ Refused v input output) :
    publishOn e s input output v =
      match textAt v input with
      | .error cause => (.error (.unreadable input cause), v)
      | .ok source =>
        match v.write output (pageBytes e s source) with
        | .error cause => (.error (.unwritable output cause), v)
        | .ok v' => (.ok ⟨output, (pageBytes e s source).size⟩, v') := by
  rw [Refused, Bool.not_eq_true] at h
  rw [publishOn, publish, StateT.run_bind, run_lead_to_one_file, h]
  show (readText input >>= _ : StateM Volume _).run v = _
  rw [StateT.run_bind, run_read_text]
  cases hsource : textAt v input with
  | error cause => rfl
  | ok source =>
    show (Access.write output (pageBytes e s source) >>= _ : StateM Volume _).run v = _
    rw [StateT.run_bind, run_write]
    cases hwrite : v.write output (pageBytes e s source) <;> simp only [hwrite] <;> rfl

/-- What a run can do, by its guard, by what it reads and by whether it can write. -/
inductive Ran (e : Html.Escaping) (s : Page.Settings) (input output : Path) (v : Volume) :
    Except PublishError Published → Volume → Prop where
  | refused (h : Refused v input output) :
      Ran e s input output v (.error (.overwritesSource output)) v
  | unreadable (h : ¬ Refused v input output) {cause : Failure}
      (hsource : textAt v input = .error cause) :
      Ran e s input output v (.error (.unreadable input cause)) v
  | unwritable (h : ¬ Refused v input output) {source : Text}
      (hsource : textAt v input = .ok source) {cause : Failure}
      (hwrite : v.write output (pageBytes e s source) = .error cause) :
      Ran e s input output v (.error (.unwritable output cause)) v
  | written (h : ¬ Refused v input output) {source : Text}
      (hsource : textAt v input = .ok source) {v' : Volume}
      (hwrite : v.write output (pageBytes e s source) = .ok v') :
      Ran e s input output v (.ok ⟨output, (pageBytes e s source).size⟩) v'

theorem ran (e : Html.Escaping) (s : Page.Settings) (input output : Path) (v : Volume) :
    Ran e s input output v (publishOn e s input output v).1 (publishOn e s input output v).2 := by
  by_cases h : Refused v input output
  · rw [publish_on_refused h]
    exact .refused h
  rw [publish_on_allowed h]
  cases hsource : textAt v input with
  | error cause => exact .unreadable h hsource
  | ok source =>
    cases hwrite : v.write output (pageBytes e s source) with
    | error cause => simpa only [hwrite] using .unwritable h hsource hwrite
    | ok v' => simpa only [hwrite] using .written h hsource hwrite

theorem read_of_text {source : Text} (h : textAt v input = .ok source) :
    ∃ bytes, v.read input = .ok bytes ∧ Text.ofBytes? bytes = some source := by
  rw [textAt] at h
  split at h
  · next bytes hbytes =>
    split at h
    · next t ht =>
      cases h
      exact ⟨bytes, hbytes, ht⟩
    · cases h
  · cases h

/-- Both paths lead to one file. -/
def Meet (v : Volume) (input output : Path) : Prop :=
  ∃ l content, v.resolve .existing input = .ok (.file l content) ∧
    v.resolve .existing output = .ok (.file l content)

/-- Both ways can be spelled out and end at one place, also when they are followed. -/
structure Coincide (v : Volume) (input output : Path) : Prop where
  spelled : ∃ t t', v.resolve .spelling input = .ok t ∧ v.resolve .spelling output = .ok t' ∧
    t.location = t'.location
  followed : ∀ t t', v.resolve .existing input = .ok t → v.resolve .existing output = .ok t' →
    t.location = t'.location

theorem refused_iff : Refused v input output ↔
    Path.same input output = true ∨ Coincide v input output := by
  rw [Refused, Bool.or_eq_true, leadAlike_iff]
  refine or_congr_right ⟨?_, Coincide.spelled⟩
  rintro ⟨t, t', hinput, houtput, hplace⟩
  refine ⟨⟨t, t', hinput, houtput, hplace⟩, fun u u' hin hout => ?_⟩
  rwa [← spelled_eq hin hinput, ← spelled_eq hout houtput]

theorem Coincide.spelled_both (h : Coincide v input output) :
    v.Spelled input ∧ v.Spelled output := by
  obtain ⟨t, t', hinput, houtput, -⟩ := h.spelled
  exact ⟨⟨t, hinput⟩, ⟨t', houtput⟩⟩

theorem Meet.refused (h : Meet v input output) (hinput : v.Spelled input)
    (houtput : v.Spelled output) : Refused v input output := by
  obtain ⟨l, content, hin, hout⟩ := h
  have hspelled := leadAlike_iff.mpr
    ⟨_, _, hinput.resolve_eq hin, houtput.resolve_eq hout, rfl⟩
  rw [Refused, hspelled, Bool.or_true]

theorem target_apart (h : ¬ Meet v input output) {l : Location} {bytes : ByteArray}
    (hinput : v.openPath .existing input = .ok (.file l bytes)) {t : Target}
    (houtput : v.openPath .creating output = .ok t) (ht : t.ForFile) : l ≠ t.location := by
  intro hl
  have hsource : v.node? l = some (.file bytes) := (has_of_openPath hinput).2
  have hplace := has_of_openPath houtput
  cases t with
  | directory l' => exact ht
  | file l' content =>
    obtain rfl : l = l' := hl
    have hcontent : bytes = content := by simpa [hsource] using hplace.2
    subst hcontent
    exact h ⟨l, bytes, resolve_of_openPath hinput (by simp), resolve_of_openPath houtput (by simp)⟩
  | absent l' =>
    obtain rfl : l = l' := hl
    have hnone := hplace.2
    rw [hsource] at hnone
    cases hnone

/-- The page stands in the file that the output path leads to, and that is the only change. -/
def PageStands (e : Html.Escaping) (s : Page.Settings) (input output : Path) (v : Volume)
    (page : Published) (v' : Volume) : Prop :=
  ∃ bytes source target, v.read input = .ok bytes ∧ Text.ofBytes? bytes = some source ∧
    v.openPath .creating output = .ok target ∧ target.ForFile ∧
      FileWritten target.location (pageBytes e s source) v v' ∧
        v'.openPath .existing output = .ok (.file target.location (pageBytes e s source)) ∧
          page = ⟨output, (pageBytes e s source).size⟩

section Written

variable {source : Text} (hsource : textAt v input = .ok source) {v' : Volume}
  (hwrite : v.write output (pageBytes e s source) = .ok v')

include hsource hwrite

theorem page_stands :
    PageStands e s input output v ⟨output, (pageBytes e s source).size⟩ v' := by
  obtain ⟨bytes, hread, htext⟩ := read_of_text hsource
  obtain ⟨target, hopen, hfile, -, rfl⟩ := write_eq_ok_iff.mp hwrite
  have hwritten := file_written_put (has_of_openPath hopen) hfile (pageBytes e s source)
  exact ⟨bytes, source, target, hread, htext, hopen, hfile, hwritten,
    hwritten.open_there hopen (by simp) hfile rfl, rfl⟩

theorem source_kept (h : ¬ Meet v input output) : v'.read input = v.read input := by
  obtain ⟨bytes, hread, -⟩ := read_of_text hsource
  obtain ⟨target, hopen, hfile, -, rfl⟩ := write_eq_ok_iff.mp hwrite
  obtain ⟨l, hinput, hallowed⟩ := read_eq_ok_iff.mp hread
  have hwritten := file_written_put (has_of_openPath hopen) hfile (pageBytes e s source)
  rw [hread]
  exact hwritten.read_elsewhere hinput hallowed (target_apart h hinput hopen hfile)

end Written

theorem publish_on_slash {spelling : Path} (h : Meet v input spelling)
    (hsame : Path.same input (spelling ++ ['/']) = false)
    (hlength : Text.byteLength (spelling ++ ['/']) < pathLimit) {source : Text}
    (hsource : textAt v input = .ok source) :
    publishOn e s input (spelling ++ ['/']) v =
      (.error (.unwritable (spelling ++ ['/']) .isDirectory), v) := by
  obtain ⟨l, content, -, hspelling⟩ := h
  have hallowed : ¬ Refused v input (spelling ++ ['/']) := by
    rw [refused_iff, hsame]
    rintro (h | h)
    · cases h
    · exact slash_unspelled hspelling h.spelled_both.2
  have hwrite : v.write (spelling ++ ['/']) (pageBytes e s source) = .error .isDirectory := by
    have hnul : '\x00' ∉ spelling ++ ['/'] := by
      have hspelled := (resolve_eq_ok_iff.mp hspelling).1
      simpa using hspelled.1
    rw [write, openPath, if_neg (by simpa using hnul), if_neg (Nat.not_le.mpr hlength),
      slash_unopened hspelling]
  simp only [publish_on_allowed hallowed, hsource, hwrite]

section Ran

variable {result : Except PublishError Published} {v' : Volume}
  (h : Ran e s input output v result v')

include h

theorem Ran.failed {error : PublishError} (herror : result = .error error) : v' = v := by
  cases h with
  | written => cases herror
  | _ => rfl

theorem Ran.published {page : Published} (hpage : result = .ok page) :
    PageStands e s input output v page v' := by
  cases h with
  | written _ hsource hwrite =>
    cases hpage
    exact page_stands hsource hwrite
  | _ => cases hpage

theorem Ran.kept (hseen : Meet v input output → v.Spelled input ∧ v.Spelled output)
    {page : Published} (hpage : result = .ok page) : v'.read input = v.read input := by
  cases h with
  | written hallowed hsource hwrite =>
    refine source_kept hsource hwrite fun hmeet => hallowed ?_
    exact hmeet.refused (hseen hmeet).1 (hseen hmeet).2
  | _ => cases hpage

theorem Ran.refused_iff : result = .error (.overwritesSource output) ↔ Refused v input output := by
  cases h with
  | refused h => simp [h]
  | unreadable h => simp [h]
  | unwritable h => simp [h]
  | written h => simp [h]

theorem Ran.completed {source : Text} (htext : textAt v input = .ok source) {target : Target}
    (hopen : v.openPath .creating output = .ok target) (hfile : target.ForFile)
    (hallowed : v.refusal? target.written .write = none) :
    result = .error (.overwritesSource output) ∨ ∃ page, result = .ok page := by
  cases h with
  | refused => exact Or.inl rfl
  | unreadable _ hsource =>
    rw [hsource] at htext
    cases htext
  | unwritable _ _ hwrite =>
    rw [write_eq_ok_iff.mpr ⟨target, hopen, hfile, hallowed, rfl⟩] at hwrite
    cases hwrite
  | written => exact Or.inr ⟨_, rfl⟩

end Ran

/-- All or nothing: an error leaves the volume as it was, and a page is there as a whole. Where paths
meet in one file and their ways can be spelled out, they are refused and the source is kept. With a
slash behind it another spelling of the source is no file, and nothing is written. -/
structure AllOrNothing (e : Html.Escaping) (s : Page.Settings) (input output : Path) (v : Volume)
    (result : Except PublishError Published) (v' : Volume) : Prop where
  failed : ∀ error, result = .error error → v' = v
  published : ∀ page, result = .ok page → PageStands e s input output v page v'
  kept : (Meet v input output → v.Spelled input ∧ v.Spelled output) →
    ∀ page, result = .ok page → v'.read input = v.read input
  guarded : Path.same input output = true ∨
      Meet v input output ∧ v.Spelled input ∧ v.Spelled output →
    result = .error (.overwritesSource output)
  justified : result = .error (.overwritesSource output) →
    Path.same input output = true ∨ Coincide v input output
  slashed : ∀ spelling, Meet v input spelling → output = spelling ++ ['/'] →
    Path.same input output = false → Text.byteLength output < pathLimit →
      ∀ source, textAt v input = .ok source → result = .error (.unwritable output .isDirectory)
  completed : ∀ source, textAt v input = .ok source →
    ∀ target, v.openPath .creating output = .ok target → target.ForFile →
      v.refusal? target.written .write = none →
        result = .error (.overwritesSource output) ∨ ∃ page, result = .ok page

theorem publish_all_or_nothing (e : Html.Escaping) (s : Page.Settings) (input output : Path)
    (v : Volume) : AllOrNothing e s input output v (publishOn e s input output v).1
      (publishOn e s input output v).2 := by
  have hran := ran e s input output v
  constructor
  case failed => exact fun _ herror => hran.failed herror
  case published => exact fun _ hpage => hran.published hpage
  case kept => exact fun hseen _ hpage => hran.kept hseen hpage
  case guarded =>
    rintro (hsame | ⟨hmeet, hinput, houtput⟩)
    · exact hran.refused_iff.mpr (refused_iff.mpr (Or.inl hsame))
    · exact hran.refused_iff.mpr (hmeet.refused hinput houtput)
  case justified => exact fun hresult => refused_iff.mp (hran.refused_iff.mp hresult)
  case slashed =>
    rintro spelling hmeet rfl hsame hlength source hsource
    rw [publish_on_slash hmeet hsame hlength hsource]
  case completed =>
    exact fun _ htext _ hopen hfile hallowed => hran.completed htext hopen hfile hallowed

/-- Where a way cannot be spelled out, the guard does not see that the paths meet, and the page takes
the place of its source. -/
theorem source_overwritten {l : Location} {bytes : ByteArray}
    (hinput : v.openPath .existing input = .ok (.file l bytes))
    (houtput : v.openPath .creating output = .ok (.file l bytes))
    (hallowed : v.refusal? l .write = none)
    (hunspelled : ¬ (v.Spelled input ∧ v.Spelled output))
    (hsame : Path.same input output = false) {source : Text}
    (hsource : textAt v input = .ok source) :
    ∃ v', publishOn e s input output v = (.ok ⟨output, (pageBytes e s source).size⟩, v') ∧
      v'.read input = .ok (pageBytes e s source) := by
  have hunseen : ¬ Refused v input output := by
    rw [refused_iff, hsame]
    rintro (h | h)
    · cases h
    · exact hunspelled h.spelled_both
  have hwrite : v.write output (pageBytes e s source) =
      .ok (v.put l (.file (pageBytes e s source))) :=
    write_eq_ok_iff.mpr ⟨_, houtput, trivial, hallowed, rfl⟩
  have hwritten := file_written_put (has_of_openPath houtput) trivial (pageBytes e s source)
  refine ⟨v.put l (.file (pageBytes e s source)), ?_, ?_⟩
  · simp only [publish_on_allowed hunseen, hsource, hwrite]
  · obtain ⟨_, hread, -⟩ := read_of_text hsource
    obtain ⟨l', hopen, hreadable⟩ := read_eq_ok_iff.mp hread
    rw [hinput] at hopen
    cases hopen
    exact read_eq_ok_iff.mpr
      ⟨l, hwritten.open_there hinput (by simp) trivial rfl, hwritten.refusal_eq.trans hreadable⟩

end Run

section Spellings

def oneFile (here : Location) (name : Text) (content : ByteArray) : Volume :=
  { nodes := (name :: here, .file content) :: (withParents here).map fun l => (l, .directory)
    workingDirectory := here }

variable {here : Location} {content : ByteArray}

theorem admits_one_file {name : Text} {mode : Mode} {step : Step} {l : Location} :
    (oneFile here name content).Admits mode l step := by
  simp [Admits, stepRefusal?, refusal?, oneFile]

theorem leads_one_file {mode : Mode} (hmode : mode ≠ .spelling) :
    (oneFile here "in.md".toList content).Leads mode linkLimit here [.enter "in.md".toList]
      (.file ("in.md".toList :: here) content) := by
  refine .file ⟨admits_one_file, by simp, by decide, unspellable_eq_false hmode _ _⟩ ?_
  simp [oneFile, node?]

theorem open_one_file {mode : Mode} (hmode : mode ≠ .spelling) {p : Path}
    (hp : p = "in.md".toList ∨ p = "./in.md".toList) :
    (oneFile here "in.md".toList content).openPath mode p =
      .ok (.file ("in.md".toList :: here) content) := by
  rw [openPath_eq_ok_iff, resolve_eq_ok_iff]
  rcases hp with rfl | rfl
  · exact ⟨by decide, by decide, leads_one_file hmode⟩
  · exact ⟨by decide, by decide, .stay admits_one_file (leads_one_file hmode)⟩

theorem short_of_spelled (h : (oneFile here "in.md".toList content).Spelled "in.md".toList) :
    spelledLength ("in.md".toList :: here) < pathLimit := by
  obtain ⟨t, ht⟩ := h
  have hsteps : steps "in.md".toList = [.enter "in.md".toList] := by decide
  have hway := (resolve_eq_ok_iff.mp ht).2
  rw [hsteps] at hway
  have hspelled := hway.enterable.spelled
  rw [Mode.unspellable, decide_eq_true rfl, Bool.true_and, decide_eq_false_iff_not,
    Nat.not_le] at hspelled
  exact hspelled

/-- The names of this directory and of those around it take 4096 bytes with their slashes. -/
def deepDirectory : Location := List.replicate 2048 ['d']

theorem unspelled_in_deep_directory :
    ¬ (oneFile deepDirectory "in.md".toList content).Spelled "in.md".toList := by
  intro h
  have hname : Text.byteLength ['d'] = 1 := by decide
  have hshort := short_of_spelled h
  rw [spelledLength, deepDirectory, spelled_length_replicate, hname, pathLimit] at hshort
  omega

theorem page_ne_source (source : Text) :
    pageBytes .verbatim {} source ≠ Text.toBytes "x".toList := by
  intro h
  have hpage := Text.ofBytes?_toBytes (Page.ofMarkdown .verbatim {} source)
  rw [← pageBytes, h, Text.ofBytes?_toBytes] at hpage
  cases hpage

theorem text_one_file :
    textAt (oneFile here "in.md".toList (Text.toBytes "x".toList)) "in.md".toList =
      .ok "x".toList := by
  have hread := read_eq_ok_iff.mpr ⟨_, @open_one_file here (Text.toBytes "x".toList) .existing
    (by simp) _ (Or.inl rfl), rfl⟩
  simp only [textAt, hread, Text.ofBytes?_toBytes]

/-- A slash behind another spelling makes the source no file. In a deep directory the source itself is
overwritten. -/
theorem not_every_spelling_guarded :
    (let v := oneFile [] "in.md".toList (Text.toBytes "x".toList)
     publishOn .verbatim {} "in.md".toList "./in.md/".toList v =
       (.error (.unwritable "./in.md/".toList .isDirectory), v)) ∧
    (let v := oneFile deepDirectory "in.md".toList (Text.toBytes "x".toList)
     ∃ page v', publishOn .verbatim {} "in.md".toList "./in.md".toList v = (.ok page, v') ∧
       v'.read "in.md".toList ≠ v.read "in.md".toList) := by
  have hopen {here : Location} {mode : Mode} (hmode : mode ≠ .spelling) {p : Path}
      (hp : p = "in.md".toList ∨ p = "./in.md".toList) :=
    @open_one_file here (Text.toBytes "x".toList) mode hmode p hp
  constructor
  · intro v
    have hmeet : Meet v "in.md".toList "./in.md".toList :=
      ⟨_, _, resolve_of_openPath (@hopen [] .existing (by simp) _ (Or.inl rfl)) (by simp),
        resolve_of_openPath (@hopen [] .existing (by simp) _ (Or.inr rfl)) (by simp)⟩
    exact publish_on_slash hmeet (by decide) (by decide) text_one_file
  · intro v
    have hinput : v.openPath .existing "in.md".toList =
        .ok (.file ("in.md".toList :: deepDirectory) (Text.toBytes "x".toList)) :=
      hopen (by simp) (Or.inl rfl)
    obtain ⟨v', hpublish, hread⟩ := source_overwritten hinput (hopen (by simp) (Or.inr rfl)) rfl
      (fun h => unspelled_in_deep_directory h.1) (by decide) text_one_file
    refine ⟨_, v', hpublish, ?_⟩
    rw [hread, read_eq_ok_iff.mpr ⟨_, hinput, rfl⟩]
    exact fun h => page_ne_source _ (Except.ok.inj h)

end Spellings

end MarkdownPage
