import Mathlib.Data.List.Basic
import MarkdownPage.File.Volume

/-!
Ways through a volume. The walks that lead somewhere are described by an inductive relation, with
one case for each kind of step; what holds of a way is shown by induction on it. Writing a file
changes what stands at one location, which cuts no way but those that end there. Spelling out a way
searches other directories than following it, but where both come to an end it is the same.
-/

namespace MarkdownPage.File

/-- Where a file is or can be created. -/
def Target.ForFile : Target → Prop
  | directory _ => False
  | file _ _ | absent _ => True

theorem spelled_length_replicate (n : Nat) (name : Text) :
    spelledLength (List.replicate n name) = n * (Text.byteLength name + 1) := by
  induction n with
  | zero => rw [List.replicate_zero, spelledLength, Nat.zero_mul]
  | succ n ih => rw [List.replicate_succ, spelledLength, ih, Nat.succ_mul, Nat.add_comm]

namespace Volume

/-- No directory refuses to be searched at the step. -/
def Admits (v : Volume) (mode : Mode) (here : Location) (step : Step) : Prop :=
  v.stepRefusal? mode here step = none

/-- A name may be entered here: it is not too long, nor is the full path if that is looked up, and no
slash asks for a directory where one cannot be created. -/
structure Enterable (v : Volume) (mode : Mode) (here : Location) (name : Text) (rest : List Step) :
    Prop where
  admitted : v.Admits mode here (.enter name)
  slash : ¬ (mode = .creating ∧ rest = [.finalSlash])
  length : Text.byteLength name ≤ nameLimit
  spelled : mode.unspellable (name :: here) false = false

/-- Steps from a directory that lead to a target. -/
inductive Leads (v : Volume) (mode : Mode) : Nat → Location → List Step → Target → Prop where
  | arrived (links : Nat) (here : Location) : Leads v mode links here [] (.directory here)
  | stay {links : Nat} {here : Location} {rest : List Step} {t : Target}
      (admitted : v.Admits mode here .stay) (way : Leads v mode links here rest t) :
      Leads v mode links here (.stay :: rest) t
  | finalSlash {links : Nat} {here : Location} {rest : List Step} {t : Target}
      (way : Leads v mode links here rest t) : Leads v mode links here (.finalSlash :: rest) t
  | up {links : Nat} {here : Location} {rest : List Step} {t : Target}
      (admitted : v.Admits mode here .up) (way : Leads v mode links here.tail rest t) :
      Leads v mode links here (.up :: rest) t
  | directory {links : Nat} {here : Location} {name : Text} {rest : List Step} {t : Target}
      (enterable : v.Enterable mode here name rest)
      (node : v.node? (name :: here) = some .directory)
      (asked : mode.unspellable (name :: here) (asksDirectory rest) = false)
      (way : Leads v mode links (name :: here) rest t) :
      Leads v mode links here (.enter name :: rest) t
  | link {links : Nat} {here : Location} {name : Text} {rest : List Step} {t : Target}
      {target : Path} (enterable : v.Enterable mode here name rest)
      (node : v.node? (name :: here) = some (.link target))
      (way : Leads v mode links (origin here target) (steps target ++ rest) t) :
      Leads v mode (links + 1) here (.enter name :: rest) t
  | file {links : Nat} {here : Location} {name : Text} {content : ByteArray}
      (enterable : v.Enterable mode here name [])
      (node : v.node? (name :: here) = some (.file content)) :
      Leads v mode links here [.enter name] (.file (name :: here) content)
  | absent {links : Nat} {here : Location} {name : Text} (creating : mode = .creating)
      (enterable : v.Enterable mode here name []) (node : v.node? (name :: here) = none) :
      Leads v mode links here [.enter name] (.absent (name :: here))

variable {v v' : Volume} {mode : Mode} {links : Nat} {here : Location} {step : Step}
  {ss : List Step} {t : Target}

theorem leads_of_walk (h : v.walk mode links here ss = .ok t) : v.Leads mode links here ss t := by
  fun_induction Volume.walk v mode links here ss with
  | case1 links here =>
    cases h
    exact .arrived links here
  | case2 links here step rest cause hrefused => cases h
  | case3 links here rest hadmitted ih => exact .stay hadmitted (ih h)
  | case4 links here rest hadmitted ih => exact .finalSlash (ih h)
  | case5 links here rest hadmitted ih => exact .up hadmitted (ih h)
  | case6 links here rest name hslash hadmitted => cases h
  | case7 links here rest name hslash hlong hadmitted => cases h
  | case8 links here rest name hslash hlong hspelled hadmitted => cases h
  | case9 links here rest name hslash hlong hspelled hnode hasked hadmitted => cases h
  | case10 links here rest name hslash hlong hspelled hnode hasked hadmitted ih =>
    exact .directory ⟨hadmitted, hslash, Nat.not_lt.mp hlong, by simpa using hspelled⟩ hnode
      (by simpa using hasked) (ih h)
  | case11 links here name hlong hspelled content hnode hadmitted hslash =>
    cases h
    exact .file ⟨hadmitted, hslash, Nat.not_lt.mp hlong, by simpa using hspelled⟩ hnode
  | case12 links here rest name hslash hlong hspelled content hnode hrest hadmitted => cases h
  | case13 here rest name hslash hlong hspelled target hnode hadmitted => cases h
  | case14 here rest name hslash hlong hspelled target hnode links hadmitted ih =>
    exact .link ⟨hadmitted, hslash, Nat.not_lt.mp hlong, by simpa using hspelled⟩ hnode (ih h)
  | case15 links here rest name hslash hlong hspelled hnode hcreate hadmitted =>
    obtain ⟨hmode, rfl⟩ := hcreate
    cases h
    exact .absent hmode ⟨hadmitted, hslash, Nat.not_lt.mp hlong, by simpa using hspelled⟩ hnode
  | case16 links here rest name hslash hlong hspelled hnode hcreate hadmitted => cases h

theorem unspellable_eq_false (h : mode ≠ .spelling) (l : Location) (slash : Bool) :
    mode.unspellable l slash = false := by
  simp [Mode.unspellable, h]

theorem searched_eq (h : mode ≠ .spelling) :
    mode.searched here step = Mode.existing.searched here step := by
  cases mode with
  | existing => rfl
  | creating => cases step <;> rfl
  | spelling => exact absurd rfl h

theorem Admits.anew {mode' : Mode} (h : v.Admits mode here step) (hmode : mode ≠ .spelling)
    (hmode' : mode' ≠ .spelling) : v.Admits mode' here step := by
  rw [Admits, stepRefusal?, searched_eq hmode']
  rwa [Admits, stepRefusal?, searched_eq hmode] at h

/-- Only slashes make it harder to create a name than to find it. -/
theorem Enterable.anew {mode' : Mode} {name : Text} {rest rest' : List Step}
    (h : v.Enterable mode here name rest) (hmode : mode ≠ .spelling) (hmode' : mode' ≠ .spelling)
    (hslash : ¬ (mode' = .creating ∧ rest' = [.finalSlash])) :
    v.Enterable mode' here name rest' where
  admitted := h.admitted.anew hmode hmode'
  slash := hslash
  length := h.length
  spelled := unspellable_eq_false hmode' _ _

section Walk

variable {name : Text} {rest : List Step}

theorem Admits.walk_stay (h : v.Admits mode here .stay) :
    v.walk mode links here (.stay :: rest) = v.walk mode links here rest := by
  rw [Admits] at h
  simp only [walk, h]

theorem walk_final_slash :
    v.walk mode links here (.finalSlash :: rest) = v.walk mode links here rest := by
  have h : v.stepRefusal? mode here .finalSlash = none := by cases mode <;> rfl
  simp only [walk, h]

theorem Admits.walk_up (h : v.Admits mode here .up) :
    v.walk mode links here (.up :: rest) = v.walk mode links here.tail rest := by
  rw [Admits] at h
  simp only [walk, h]

theorem Admits.walk_closed (h : v.Admits .creating here (.enter name)) :
    v.walk .creating links here [.enter name, .finalSlash] = .error .isDirectory := by
  rw [Admits] at h
  simp [walk, h]

theorem Enterable.walk_enter (h : v.Enterable mode here name rest) :
    v.walk mode links here (.enter name :: rest) =
      match v.node? (name :: here) with
      | some .directory =>
        if mode.unspellable (name :: here) (asksDirectory rest) then .error .nameTooLong
        else v.walk mode links (name :: here) rest
      | some (.file content) =>
        if rest = [] then .ok (.file (name :: here) content) else .error .notDirectory
      | some (.link target) =>
        match links with
        | 0 => .error .tooManyLinks
        | links + 1 => v.walk mode links (origin here target) (steps target ++ rest)
      | none =>
        if mode = .creating ∧ rest = [] then .ok (.absent (name :: here)) else .error .missing := by
  have hadmitted := h.admitted
  rw [Admits] at hadmitted
  simp only [walk, hadmitted]
  rw [if_neg h.slash, if_neg (Nat.not_lt.mpr h.length)]
  exact if_neg (by simp [h.spelled])

end Walk

theorem walk_of_leads (h : v.Leads mode links here ss t) : v.walk mode links here ss = .ok t := by
  induction h with
  | arrived links here => rw [walk]
  | stay admitted _ ih => rw [admitted.walk_stay, ih]
  | finalSlash _ ih => rw [walk_final_slash, ih]
  | up admitted _ ih => rw [admitted.walk_up, ih]
  | directory enterable node asked _ ih => simp [enterable.walk_enter, node, asked, ih]
  | link enterable node _ ih => simp [enterable.walk_enter, node, ih]
  | file enterable node => simp [enterable.walk_enter, node]
  | absent creating enterable node =>
    subst creating
    simp [enterable.walk_enter, node]

theorem walk_eq_ok_iff : v.walk mode links here ss = .ok t ↔ v.Leads mode links here ss t :=
  ⟨leads_of_walk, walk_of_leads⟩

def Has (v : Volume) : Target → Prop
  | .directory _ => True
  | .file l content => l ≠ [] ∧ v.node? l = some (.file content)
  | .absent l => l ≠ [] ∧ v.node? l = none

theorem Leads.has (h : v.Leads mode links here ss t) : v.Has t := by
  induction h with
  | arrived links here => trivial
  | stay _ _ ih => exact ih
  | finalSlash _ ih => exact ih
  | up _ _ ih => exact ih
  | directory _ _ _ _ ih => exact ih
  | link _ _ _ ih => exact ih
  | file _ node => exact ⟨List.cons_ne_nil _ _, node⟩
  | absent _ _ node => exact ⟨List.cons_ne_nil _ _, node⟩

/-- What a path leads to can be found, if it is there. -/
theorem Leads.existing (h : v.Leads mode links here ss t) (hmode : mode ≠ .spelling)
    (ht : ∀ l, t ≠ .absent l) : v.Leads .existing links here ss t := by
  have hstep {here : Location} {step : Step} (admitted : v.Admits mode here step) :
      v.Admits .existing here step :=
    admitted.anew hmode (by simp)
  have hopen {here : Location} {name : Text} {rest : List Step}
      (enterable : v.Enterable mode here name rest) : v.Enterable .existing here name rest :=
    enterable.anew hmode (by simp) (by simp)
  induction h with
  | arrived links here => exact .arrived links here
  | stay admitted _ ih => exact .stay (hstep admitted) (ih ht)
  | finalSlash _ ih => exact .finalSlash (ih ht)
  | up admitted _ ih => exact .up (hstep admitted) (ih ht)
  | directory enterable node _ _ ih => exact .directory (hopen enterable) node rfl (ih ht)
  | link enterable node _ ih => exact .link (hopen enterable) node (ih ht)
  | file enterable node => exact .file (hopen enterable) node
  | absent => exact absurd rfl (ht _)

/-- A way that can be spelled out leads where it leads when it is followed. -/
theorem Leads.spelled_eq {t' : Target} (h : v.Leads .existing links here ss t)
    (h' : v.Leads .spelling links here ss t') : t' = t := by
  -- what stands under a name decides how both ways go on
  induction h with
  | arrived links here =>
    cases h'
    rfl
  | stay _ _ ih =>
    cases h' with
    | stay _ way' => exact ih way'
  | finalSlash _ ih =>
    cases h' with
    | finalSlash way' => exact ih way'
  | up _ _ ih =>
    cases h' with
    | up _ way' => exact ih way'
  | directory _ node _ _ ih => cases h' <;> simp_all
  | link _ node _ ih => cases h' <;> simp_all
  | file _ node => cases h' <;> simp_all
  | absent creating => cases creating

theorem Leads.enterable {name : Text} {rest : List Step}
    (h : v.Leads mode links here (.enter name :: rest) t) : v.Enterable mode here name rest := by
  cases h <;> assumption

/-- With a slash at its end no way leads to a file. -/
theorem Leads.no_file {ss' : List Step} (h : v.Leads mode links here (ss' ++ [.finalSlash]) t) :
    ¬ t.ForFile := by
  generalize hss : ss' ++ [.finalSlash] = ss at h
  induction h generalizing ss' with
  | arrived links here => exact id
  | stay _ _ ih =>
    obtain ⟨-, h⟩ | ⟨ss', -, rfl⟩ := List.append_eq_cons_iff.mp hss
    · cases h
    · exact ih rfl
  | finalSlash way ih =>
    obtain ⟨-, h⟩ | ⟨ss', -, rfl⟩ := List.append_eq_cons_iff.mp hss
    · cases h
      cases way
      exact id
    · exact ih rfl
  | up _ _ ih =>
    obtain ⟨-, h⟩ | ⟨ss', -, rfl⟩ := List.append_eq_cons_iff.mp hss
    · cases h
    · exact ih rfl
  | directory _ _ _ _ ih =>
    obtain ⟨-, h⟩ | ⟨ss', -, rfl⟩ := List.append_eq_cons_iff.mp hss
    · cases h
    · exact ih rfl
  | link _ _ _ ih =>
    obtain ⟨-, h⟩ | ⟨ss', -, rfl⟩ := List.append_eq_cons_iff.mp hss
    · cases h
    · exact ih (List.append_assoc _ _ _)
  | file => cases List.append_eq_singleton_iff.mp hss <;> simp_all
  | absent => cases List.append_eq_singleton_iff.mp hss <;> simp_all

theorem Leads.slash_unspelled {l : Location} {content : ByteArray} {t' : Target}
    (h : v.Leads .existing links here ss (.file l content)) :
    ¬ v.Leads .spelling links here (ss ++ [.finalSlash]) t' := by
  generalize ht : Target.file l content = t at h
  intro h'
  induction h with
  | arrived links here => cases ht
  | stay _ _ ih =>
    cases h' with
    | stay _ way' => exact ih ht way'
  | finalSlash _ ih =>
    cases h' with
    | finalSlash way' => exact ih ht way'
  | up _ _ ih =>
    cases h' with
    | up _ way' => exact ih ht way'
  | @directory _ _ _ rest _ _ node _ _ ih =>
    rw [List.cons_append] at h'
    generalize rest ++ [Step.finalSlash] = more at h' ih
    cases h' <;> simp_all
  | @link _ _ _ rest _ _ _ node _ ih =>
    rw [List.cons_append] at h'
    rw [List.append_assoc] at ih
    generalize rest ++ [Step.finalSlash] = more at h' ih
    cases h' <;> simp_all
  | file _ node => cases h' <;> simp_all
  | absent => cases ht

theorem Leads.slash_unopened {l : Location} {content : ByteArray}
    (h : v.Leads .existing links here ss (.file l content)) :
    v.walk .creating links here (ss ++ [.finalSlash]) = .error .isDirectory := by
  have hstep {here : Location} {step : Step} (admitted : v.Admits .existing here step) :
      v.Admits .creating here step :=
    admitted.anew (by simp) (by simp)
  have hopen {here : Location} {name : Text} {rest : List Step}
      (enterable : v.Enterable .existing here name rest) (hrest : rest ≠ []) :
      v.Enterable .creating here name (rest ++ [.finalSlash]) :=
    enterable.anew (by simp) (by simp) (by simpa using hrest)
  generalize ht : Target.file l content = t at h
  induction h with
  | arrived links here => cases ht
  | stay admitted _ ih => rw [List.cons_append, (hstep admitted).walk_stay, ih ht]
  | finalSlash _ ih => rw [List.cons_append, walk_final_slash, ih ht]
  | up admitted _ ih => rw [List.cons_append, (hstep admitted).walk_up, ih ht]
  | @directory links here name rest t enterable node _ way ih =>
    have hrest : rest ≠ [] := by
      rintro rfl
      cases way
      cases ht
    rw [List.cons_append, (hopen enterable hrest).walk_enter, node]
    exact ih ht
  | @link links here name rest t target enterable node _ ih =>
    by_cases hrest : rest = []
    · rw [hrest, List.singleton_append, (hstep enterable.admitted).walk_closed]
    · rw [List.cons_append, (hopen enterable hrest).walk_enter, node, ← ih ht, List.append_assoc]
  | file enterable _ => rw [List.singleton_append, (hstep enterable.admitted).walk_closed]
  | absent => cases ht

structure AgreeExceptAt (l : Location) (v v' : Volume) : Prop where
  workingDirectory : v'.workingDirectory = v.workingDirectory
  refusals : v'.refusals = v.refusals
  elsewhere : ∀ l', l' ≠ l → v'.node? l' = v.node? l'

theorem AgreeExceptAt.refusal_eq {l l' : Location} {right : Right} (h : AgreeExceptAt l v v') :
    v'.refusal? l' right = v.refusal? l' right := by
  rw [refusal?, h.refusals, refusal?]

theorem AgreeExceptAt.admits {l : Location} (h : AgreeExceptAt l v v')
    (hadmitted : v.Admits mode here step) : v'.Admits mode here step := by
  rw [Admits, stepRefusal?] at hadmitted ⊢
  simpa only [h.refusal_eq] using hadmitted

theorem AgreeExceptAt.enterable {l : Location} {name : Text} {rest : List Step}
    (h : AgreeExceptAt l v v') (he : v.Enterable mode here name rest) :
    v'.Enterable mode here name rest :=
  ⟨h.admits he.admitted, he.slash, he.length, he.spelled⟩

/-- The second volume has a file with this content where the first has a file or nothing, and is the
same elsewhere. -/
structure FileWritten (l : Location) (content : ByteArray) (v v' : Volume) : Prop
    extends AgreeExceptAt l v v' where
  before : v.node? l = none ∨ ∃ old, v.node? l = some (.file old)
  after : v'.node? l = some (.file content)

section Written

variable {l : Location} {content : ByteArray} (hw : FileWritten l content v v')

include hw

theorem FileWritten.keeps {l' : Location} {node : Node} (hl : v.node? l' = some node)
    (hnode : ∀ old, node ≠ .file old) : v'.node? l' = some node := by
  rw [← hl]
  apply hw.elsewhere
  rintro rfl
  rcases hw.before with hnone | ⟨old, hold⟩
  · rw [hnone] at hl
    cases hl
  · rw [hold] at hl
    exact hnode old (Option.some.inj hl).symm

theorem FileWritten.leads_elsewhere (h : v.Leads mode links here ss t) (ht : t.location ≠ l) :
    v'.Leads mode links here ss t := by
  induction h with
  | arrived links here => exact .arrived links here
  | stay admitted _ ih => exact .stay (hw.admits admitted) (ih ht)
  | finalSlash _ ih => exact .finalSlash (ih ht)
  | up admitted _ ih => exact .up (hw.admits admitted) (ih ht)
  | directory enterable node asked _ ih =>
    exact .directory (hw.enterable enterable) (hw.keeps node fun _ => Node.noConfusion) asked (ih ht)
  | link enterable node _ ih =>
    exact .link (hw.enterable enterable) (hw.keeps node fun _ => Node.noConfusion) (ih ht)
  | file enterable node => exact .file (hw.enterable enterable) ((hw.elsewhere _ ht).trans node)
  | absent creating enterable node =>
    exact .absent creating (hw.enterable enterable) ((hw.elsewhere _ ht).trans node)

theorem FileWritten.leads_there (h : v.Leads mode links here ss t) (ht : t.ForFile)
    (hl : t.location = l) : v'.Leads mode links here ss (.file l content) := by
  induction h with
  | arrived links here => exact ht.elim
  | stay admitted _ ih => exact .stay (hw.admits admitted) (ih ht hl)
  | finalSlash _ ih => exact .finalSlash (ih ht hl)
  | up admitted _ ih => exact .up (hw.admits admitted) (ih ht hl)
  | directory enterable node asked _ ih =>
    exact .directory (hw.enterable enterable) (hw.keeps node fun _ => Node.noConfusion) asked
      (ih ht hl)
  | link enterable node _ ih =>
    exact .link (hw.enterable enterable) (hw.keeps node fun _ => Node.noConfusion) (ih ht hl)
  | file enterable node =>
    obtain rfl := hl
    exact .file (hw.enterable enterable) hw.after
  | absent creating enterable node =>
    obtain rfl := hl
    exact .file (hw.enterable enterable) hw.after

end Written

theorem node_put_self (v : Volume) {l : Location} (hl : l ≠ []) (node : Node) :
    (v.put l node).node? l = some node := by
  cases l with
  | nil => exact absurd rfl hl
  | cons name l => simp [node?, put]

theorem lookup_filter_ne {l l' : Location} (h : l' ≠ l) (nodes : List (Location × Node)) :
    (nodes.filter fun entry => entry.1 ≠ l).lookup l' = nodes.lookup l' := by
  induction nodes with
  | nil => rfl
  | cons entry nodes ih =>
    by_cases hentry : entry.1 = l
    · have hother : (l' == entry.1) = false := by
        rw [hentry]
        exact beq_false_of_ne h
      rw [List.filter_cons_of_neg (by simpa using hentry), List.lookup_cons, hother, ih]
    · rw [List.filter_cons_of_pos (by simpa using hentry), List.lookup_cons, List.lookup_cons, ih]

theorem node_put_ne (v : Volume) {l l' : Location} (h : l' ≠ l) (node : Node) :
    (v.put l node).node? l' = v.node? l' := by
  cases l' with
  | nil => rfl
  | cons name l' =>
    have hkey : ((name :: l' : Location) == l) = false := beq_false_of_ne h
    simp only [node?, put, List.lookup_cons, hkey, lookup_filter_ne h]

theorem file_written_put (h : v.Has t) (ht : t.ForFile) (content : ByteArray) :
    FileWritten t.location content v (v.put t.location (.file content)) := by
  have hplace : t.location ≠ [] ∧
      (v.node? t.location = none ∨ ∃ old, v.node? t.location = some (.file old)) := by
    cases t with
    | directory l => exact ht.elim
    | file l old => exact ⟨h.1, .inr ⟨old, h.2⟩⟩
    | absent l => exact ⟨h.1, .inl h.2⟩
  exact {
    workingDirectory := rfl
    refusals := rfl
    elsewhere := fun _ hl => node_put_ne v hl _
    before := hplace.2
    after := node_put_self v hplace.1 _ }

section Paths

variable {p q : Path} {content : ByteArray}

theorem resolve_eq_ok_iff : v.resolve mode p = .ok t ↔ ('\x00' ∉ p ∧ p ≠ []) ∧
    v.Leads mode linkLimit (origin v.workingDirectory p) (steps p) t := by
  rw [← walk_eq_ok_iff, resolve]
  by_cases hnul : '\x00' ∈ p
  · simp [hnul]
  · by_cases hempty : p = []
    · simp [hempty]
    · simp [hnul, hempty]

theorem openPath_eq_ok_iff : v.openPath mode p = .ok t ↔
    Text.byteLength p < pathLimit ∧ v.resolve mode p = .ok t := by
  rw [openPath]
  by_cases hnul : '\x00' ∈ p
  · simp [hnul, resolve]
  · by_cases hlong : pathLimit ≤ Text.byteLength p
    · simp [hnul, hlong, Nat.not_lt.mpr hlong]
    · simp [hnul, hlong, Nat.lt_of_not_le hlong]

theorem has_of_openPath (h : v.openPath mode p = .ok t) : v.Has t := by
  obtain ⟨-, hresolve⟩ := openPath_eq_ok_iff.mp h
  obtain ⟨-, hway⟩ := resolve_eq_ok_iff.mp hresolve
  exact hway.has

theorem read_eq_ok_iff : v.read p = .ok content ↔
    ∃ l, v.openPath .existing p = .ok (.file l content) ∧ v.refusal? l .read = none := by
  rw [read]
  cases hopen : v.openPath .existing p with
  | error failure => simp
  | ok t =>
    cases t with
    | directory l => cases h : v.refusal? l .read <;> simp [Target.location, Target.content, h]
    | file l old => cases h : v.refusal? l .read <;> simp [Target.location, Target.content, h]
    | absent l => cases h : v.refusal? l .read <;> simp [Target.location, Target.content, h]

theorem write_eq_ok_iff : v.write p content = .ok v' ↔
    ∃ t, v.openPath .creating p = .ok t ∧ t.ForFile ∧ v.refusal? t.written .write = none ∧
      v' = v.put t.location (.file content) := by
  rw [write]
  cases hopen : v.openPath .creating p with
  | error failure => simp
  | ok t =>
    cases t with
    | directory l => simp [Target.ForFile]
    | file l old =>
      cases h : v.refusal? l .write <;> simp [Target.ForFile, Target.written, h, eq_comm]
    | absent l =>
      cases h : v.refusal? l.tail .write <;> simp [Target.ForFile, Target.written, h, eq_comm]

theorem resolve_of_openPath {l : Location} (h : v.openPath mode p = .ok (.file l content))
    (hmode : mode ≠ .spelling) : v.resolve .existing p = .ok (.file l content) := by
  obtain ⟨hspelled, hway⟩ := resolve_eq_ok_iff.mp (openPath_eq_ok_iff.mp h).2
  exact resolve_eq_ok_iff.mpr ⟨hspelled, hway.existing hmode (by simp)⟩

/-- The way of the path can be spelled out from the root. -/
def Spelled (v : Volume) (p : Path) : Prop := ∃ t, v.resolve .spelling p = .ok t

theorem spelled_eq {t' : Target} (h : v.resolve .existing p = .ok t)
    (h' : v.resolve .spelling p = .ok t') : t' = t := by
  obtain ⟨-, hway⟩ := resolve_eq_ok_iff.mp h
  obtain ⟨-, hway'⟩ := resolve_eq_ok_iff.mp h'
  exact hway.spelled_eq hway'

theorem Spelled.resolve_eq (h : v.Spelled p) (ht : v.resolve .existing p = .ok t) :
    v.resolve .spelling p = .ok t := by
  obtain ⟨t', ht'⟩ := h
  rw [ht', spelled_eq ht ht']

theorem leadAlike_iff : v.leadAlike p q = true ↔
    ∃ t t', v.resolve .spelling p = .ok t ∧ v.resolve .spelling q = .ok t' ∧
      t.location = t'.location := by
  rw [leadAlike]
  cases v.resolve .spelling p with
  | error failure => simp
  | ok t => cases v.resolve .spelling q <;> simp

section Slash

theorem steps_slash (h : p.getLast? ≠ some '/') : steps (p ++ ['/']) = steps p ++ [.finalSlash] := by
  have hpieces : (p ++ ['/']).splitOn '/' = p.splitOn '/' ++ [[]] :=
    List.splitOn_append_cons_self p []
  have hnone : [([] : Text)].filterMap Step.ofPiece? = [] := rfl
  rw [steps, Path.pieces, hpieces, List.filterMap_append, hnone, List.append_nil,
    List.getLast?_concat, if_pos rfl, steps, if_neg h, List.append_nil]
  rfl

theorem no_file_of_slash (h : p.getLast? = some '/') (ht : v.resolve mode p = .ok t) :
    ¬ t.ForFile := by
  obtain ⟨-, hway⟩ := resolve_eq_ok_iff.mp ht
  rw [steps, if_pos h] at hway
  exact hway.no_file

section File

variable {l : Location} (h : v.resolve .existing p = .ok (.file l content))

include h

theorem resolve_slash_eq : v.resolve mode (p ++ ['/']) =
    v.walk mode linkLimit (origin v.workingDirectory p) (steps p ++ [.finalSlash]) := by
  obtain ⟨⟨hnul, hne⟩, -⟩ := resolve_eq_ok_iff.mp h
  have hlast : p.getLast? ≠ some '/' := fun hlast => no_file_of_slash hlast h trivial
  have horigin : origin v.workingDirectory (p ++ ['/']) = origin v.workingDirectory p := by
    rw [origin, List.head?_append_of_ne_nil _ hne, origin]
  simp [resolve, hnul, hne, steps_slash hlast, horigin]

/-- With a slash behind it, the way to a file cannot be spelled out, and opens nothing. -/
theorem slash_unspelled : ¬ v.Spelled (p ++ ['/']) := by
  rintro ⟨t, ht⟩
  obtain ⟨-, hway⟩ := resolve_eq_ok_iff.mp h
  rw [resolve_slash_eq h, walk_eq_ok_iff] at ht
  exact hway.slash_unspelled ht

theorem slash_unopened : v.resolve .creating (p ++ ['/']) = .error .isDirectory := by
  obtain ⟨-, hway⟩ := resolve_eq_ok_iff.mp h
  rw [resolve_slash_eq h, hway.slash_unopened]

end File

end Slash

section Written

variable {l : Location} (hw : FileWritten l content v v')

include hw

theorem FileWritten.read_elsewhere {old : ByteArray} {l' : Location}
    (h : v.openPath .existing p = .ok (.file l' old)) (hallowed : v.refusal? l' .read = none)
    (hl : l' ≠ l) : v'.read p = .ok old := by
  obtain ⟨hlength, hresolve⟩ := openPath_eq_ok_iff.mp h
  obtain ⟨hspelled, hway⟩ := resolve_eq_ok_iff.mp hresolve
  rw [← hw.workingDirectory] at hway
  have hway' := hw.leads_elsewhere hway hl
  have hopen := openPath_eq_ok_iff.mpr ⟨hlength, resolve_eq_ok_iff.mpr ⟨hspelled, hway'⟩⟩
  exact read_eq_ok_iff.mpr ⟨l', hopen, hw.refusal_eq.trans hallowed⟩

theorem FileWritten.open_there (h : v.openPath mode p = .ok t) (hmode : mode ≠ .spelling)
    (ht : t.ForFile) (hl : t.location = l) :
    v'.openPath .existing p = .ok (.file l content) := by
  obtain ⟨hlength, hresolve⟩ := openPath_eq_ok_iff.mp h
  obtain ⟨hspelled, hway⟩ := resolve_eq_ok_iff.mp hresolve
  rw [← hw.workingDirectory] at hway
  have hway' := (hw.leads_there hway ht hl).existing hmode (by simp)
  exact openPath_eq_ok_iff.mpr ⟨hlength, resolve_eq_ok_iff.mpr ⟨hspelled, hway'⟩⟩

end Written

end Paths

end Volume

end MarkdownPage.File
