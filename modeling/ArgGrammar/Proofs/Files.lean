import ArgGrammar.FileTree

/-!
# Overwriting files

Where there is a file at a path, the directory of the path is there. Making that directory changes
nothing, and what is written is read back.

* `PathStep.Written`: the steps that a path can have.
* `pathSteps_pathOf`, `pathOf_sublist`: the path of some of the steps of a path has these steps, and
  is made of characters of that path.
* `FileTree.follow_append`, `FileTree.follow_moves`: steps are taken one after another, and those
  that stay make no difference.
* `FileTree.makeParents_of_file`: the directory of a file is there.
* `FileTree.writeDeep_of_file`: writing to a path with a file puts the text in its place.
* `FileTree.look_put_self`: what is at its paths then.
-/

namespace ArgGrammar

/-! ## Parts of paths -/

theorem splitSlashes_eq_splitOn (cs : List Char) : splitSlashes cs = cs.splitOn '/' := by
  induction cs using splitSlashes.induct with
  | case1 => rfl
  | case2 cs ih =>
    rw [splitSlashes, ih, List.splitOn_cons_eq_if_modifyHead]
    rfl
  | case3 c cs hc hparts ih =>
    rw [ih] at hparts
    exact absurd hparts (List.splitOn_ne_nil '/' cs)
  | case4 c cs hc part parts hparts ih =>
    have hslash : (c == '/') = false := by simpa using hc
    rw [splitSlashes, hparts, List.splitOn_cons_eq_if_modifyHead, ← ih, hparts, hslash]
    · rfl
    · exact hc

theorem not_mem_part {cs part : List Char} (h : part ∈ splitSlashes cs) : '/' ∉ part := by
  rw [splitSlashes_eq_splitOn] at h
  induction cs generalizing part with
  | nil =>
    rw [List.splitOn_nil, List.mem_singleton] at h
    simp [h]
  | cons c cs ih =>
    obtain ⟨first, parts, hparts⟩ := List.exists_cons_of_ne_nil (List.splitOn_ne_nil '/' cs)
    rw [List.splitOn_cons_eq_if_modifyHead, hparts] at h
    rw [hparts] at ih
    by_cases hslash : c = '/'
    · rw [if_pos (by simpa using hslash)] at h
      rcases List.mem_cons.mp h with rfl | h
      · simp
      · exact ih h
    · rw [if_neg (by simpa using hslash), List.modifyHead_cons] at h
      rcases List.mem_cons.mp h with rfl | h
      · have hfirst := ih List.mem_cons_self
        simp [hfirst, Ne.symm hslash]
      · exact ih (List.mem_cons_of_mem _ h)

/-- A step that a path can have: its text asks for it, and is one part. -/
structure PathStep.Written (s : PathStep) : Prop where
  ofPart : PathStep.ofPart? s.text = some s
  part : '/' ∉ s.text.toList

theorem PathStep.text_of_ofPart? {part : String} {s : PathStep}
    (h : PathStep.ofPart? part = some s) : s.text = part := by
  rw [ofPart?] at h
  split at h
  · cases h
  split at h
  · next hdot =>
    cases h
    exact hdot.symm
  split at h
  · next hdots =>
    cases h
    exact hdots.symm
  · cases h
    rfl

theorem PathStep.written_of_mem {path : String} {s : PathStep} (h : s ∈ pathSteps path) :
    s.Written := by
  obtain ⟨part, hpart, hs⟩ := List.mem_filterMap.mp h
  obtain ⟨cs, hcs, rfl⟩ := List.mem_map.mp hpart
  have htext := PathStep.text_of_ofPart? hs
  exact ⟨htext ▸ hs, by rw [htext, String.toList_ofList]; exact not_mem_part hcs⟩

theorem PathStep.Written.text_ne_nil {s : PathStep} (h : s.Written) : s.text.toList ≠ [] := by
  intro hnil
  have hempty : s.text = "" := String.toList_inj.mp hnil
  have hpart := h.ofPart
  rw [hempty] at hpart
  cases hpart

/-! ## Paths of steps -/

/-- The characters in front of the first part of a path. -/
def rootChars (rooted : Bool) : List Char := if rooted then ['/'] else []

theorem toList_joinWith (parts : List String) :
    (Text.joinWith "/" parts).toList = ['/'].intercalate (parts.map String.toList) := by
  induction parts using Text.joinWith.induct with
  | case1 => rfl
  | case2 s => simp [Text.joinWith]
  | case3 s rest hrest ih =>
    rw [Text.joinWith, String.toList_append, String.toList_append, ih, List.map_cons,
      List.intercalate_cons_of_ne_nil (by simpa using hrest)]
    · rfl
    · exact hrest

theorem toList_pathOf (rooted : Bool) (steps : List PathStep) :
    (pathOf rooted steps).toList =
      rootChars rooted ++ ['/'].intercalate (steps.map fun s => s.text.toList) := by
  rw [pathOf, String.toList_append, toList_joinWith, List.map_map]
  cases rooted <;> rfl

theorem pathSteps_root (rooted : Bool) {path : String} {cs : List Char}
    (h : path.toList = rootChars rooted ++ cs) :
    pathSteps path = ((splitSlashes cs).map String.ofList).filterMap PathStep.ofPart? := by
  rw [pathSteps, h]
  cases rooted
  · rfl
  · rw [rootChars, if_pos rfl, List.singleton_append, splitSlashes, List.map_cons,
      List.filterMap_cons_none rfl]

theorem ofPart?_texts {steps : List PathStep} (h : ∀ s ∈ steps, s.Written) :
    ((steps.map fun s => s.text.toList).map String.ofList).filterMap PathStep.ofPart? = steps := by
  induction steps with
  | nil => rfl
  | cons s steps ih =>
    have hs : PathStep.ofPart? (String.ofList s.text.toList) = some s := by
      rw [String.ofList_toList]
      exact (h s (by simp)).ofPart
    have hrest := ih fun s hs => h s (by simp [hs])
    rw [List.map_cons, List.map_cons, List.filterMap_cons_some hs, hrest]

theorem pathSteps_pathOf (rooted : Bool) {steps : List PathStep} (h : ∀ s ∈ steps, s.Written) :
    pathSteps (pathOf rooted steps) = steps := by
  rw [pathSteps_root rooted (toList_pathOf rooted steps)]
  by_cases hnil : steps = []
  · subst hnil
    rfl
  · have hparts : ∀ part ∈ steps.map fun s => s.text.toList, '/' ∉ part := by
      intro part hpart
      obtain ⟨s, hs, rfl⟩ := List.mem_map.mp hpart
      exact (h s hs).part
    rw [splitSlashes_eq_splitOn, List.splitOn_intercalate '/' hparts (by simpa using hnil),
      ofPart?_texts h]

theorem isRooted_pathOf (rooted : Bool) {steps : List PathStep} (h : ∀ s ∈ steps, s.Written)
    (hnil : steps ≠ []) : isRooted (pathOf rooted steps) = rooted := by
  rw [isRooted, toList_pathOf]
  cases rooted with
  | true => rfl
  | false =>
    obtain ⟨s, rest, rfl⟩ := List.exists_cons_of_ne_nil hnil
    obtain ⟨c, cs, htext⟩ := List.exists_cons_of_ne_nil (h s (by simp)).text_ne_nil
    have hslash := (h s (by simp)).part
    rw [htext] at hslash
    have hc : c ≠ '/' := Ne.symm (List.ne_of_not_mem_cons hslash)
    simp [rootChars, htext, hc]

/-! ## Parts of a path -/

theorem intercalate_sublist (sep : List Char) {parts others : List (List Char)} (hnil : parts ≠ [])
    (h : parts.Sublist others) : (sep.intercalate parts).Sublist (sep.intercalate others) := by
  induction h with
  | slnil => exact List.Sublist.refl _
  | @cons parts others part hsub ih =>
    have hne : others ≠ [] := fun heq => hnil (by simpa [heq] using hsub)
    rw [List.intercalate_cons_of_ne_nil hne]
    exact (ih hnil).trans (List.sublist_append_right _ _)
  | @cons_cons parts others part hsub ih =>
    by_cases hparts : parts = []
    · subst hparts
      rw [List.intercalate_singleton]
      by_cases hothers : others = []
      · simp [hothers]
      · rw [List.intercalate_cons_of_ne_nil hothers, List.append_assoc]
        exact List.sublist_append_left _ _
    · have hothers : others ≠ [] := fun heq => hparts (by simpa [heq] using hsub)
      rw [List.intercalate_cons_of_ne_nil hparts, List.intercalate_cons_of_ne_nil hothers]
      exact (ih hparts).append_left _

theorem texts_sublist (parts : List (List Char)) :
    (((parts.map String.ofList).filterMap PathStep.ofPart?).map fun s => s.text.toList).Sublist
      parts := by
  induction parts with
  | nil => exact List.Sublist.refl _
  | cons part parts ih =>
    rw [List.map_cons]
    match hstep : PathStep.ofPart? (String.ofList part) with
    | none =>
      rw [List.filterMap_cons_none hstep]
      exact ih.cons part
    | some s =>
      rw [List.filterMap_cons_some hstep, List.map_cons, PathStep.text_of_ofPart? hstep,
        String.toList_ofList]
      exact ih.cons_cons part

theorem exists_rootChars (path : String) :
    ∃ cs, path.toList = rootChars (isRooted path) ++ cs := by
  rw [isRooted]
  match path.toList with
  | [] => exact ⟨[], rfl⟩
  | c :: cs =>
    by_cases hc : c = '/'
    · exact ⟨cs, by simp [rootChars, hc]⟩
    · exact ⟨c :: cs, by simp [rootChars, hc]⟩

theorem pathOf_sublist {path : String} {steps : List PathStep} (hnil : steps ≠ [])
    (h : steps.Sublist (pathSteps path)) :
    (pathOf (isRooted path) steps).toList.Sublist path.toList := by
  obtain ⟨cs, hcs⟩ := exists_rootChars path
  have htexts : (steps.map fun s => s.text.toList).Sublist (cs.splitOn '/') := by
    rw [pathSteps_root _ hcs] at h
    rw [← splitSlashes_eq_splitOn]
    exact (h.map _).trans (texts_sublist _)
  have hinside := intercalate_sublist ['/'] (by simpa using hnil) htexts
  rw [List.intercalate_splitOn] at hinside
  rw [toList_pathOf, hcs]
  exact hinside.append_left _

theorem byteSize_le_of_sublist {cs ds : List Char} (h : cs.Sublist ds) :
    Text.byteSize cs ≤ Text.byteSize ds := by
  induction h with
  | slnil => exact Nat.le_refl _
  | cons c _ ih => exact Nat.le_trans ih (Nat.le_add_left _ _)
  | cons_cons c _ ih => exact Nat.add_le_add_left ih _

theorem pathFault?_pathOf {path : String} {steps : List PathStep} (hnil : steps ≠ [])
    (h : steps.Sublist (pathSteps path)) (hpath : pathFault? path = none) :
    pathFault? (pathOf (isRooted path) steps) = none := by
  have hsub := pathOf_sublist hnil h
  have hne : pathOf (isRooted path) steps ≠ "" := by
    intro hempty
    have hsteps := pathSteps_pathOf (isRooted path) fun s hs =>
      PathStep.written_of_mem (h.subset hs)
    rw [hempty] at hsteps
    exact hnil hsteps.symm
  rw [pathFault?] at hpath ⊢
  split at hpath
  · cases hpath
  split at hpath
  · cases hpath
  split at hpath
  · cases hpath
  next hnul hsize =>
    have hchars : (pathOf (isRooted path) steps).toList.any (·.toNat = 0) = false := by
      simp only [Bool.not_eq_true, List.any_eq_false] at hnul ⊢
      exact fun c hc => hnul c (hsub.subset hc)
    have hshorter : Text.size (pathOf (isRooted path) steps) ≤ Text.size path :=
      byteSize_le_of_sublist hsub
    have hshort := Nat.le_trans hshorter (Nat.not_lt.mp hsize)
    rw [if_neg hne, if_neg (by simp [hchars]), if_neg (Nat.not_lt.mpr hshort)]

namespace FileTree

variable {t : FileTree} {place q : List String} {step : PathStep} {steps : List PathStep}

/-! ## Following steps -/

theorem follow_cons (t : FileTree) (place : List String) (step : PathStep)
    (steps : List PathStep) :
    t.follow place (step :: steps) = (t.follow place [step]).bind fun q => t.follow q steps := by
  cases hnode : t.node? place with
  | none => simp [follow, hnode, Except.bind]
  | some node =>
    cases node with
    | file text => simp [follow, hnode, Except.bind]
    | directory =>
      cases step with
      | stay => simp [follow, hnode, Except.bind]
      | up => simp [follow, hnode, Except.bind]
      | down name =>
        by_cases hlong : maxName < Text.size name <;> simp [follow, hnode, hlong, Except.bind]

theorem follow_append (t : FileTree) (place : List String) (steps more : List PathStep) :
    t.follow place (steps ++ more) = (t.follow place steps).bind fun q => t.follow q more := by
  induction steps generalizing place with
  | nil => rfl
  | cons step steps ih =>
    rw [List.cons_append, follow_cons, follow_cons t place step steps]
    cases t.follow place [step] with
    | error fault => rfl
    | ok q => exact ih q

theorem follow_stay (h : t.node? place = some .directory) : t.follow place [.stay] = .ok place := by
  simp [follow, h]

theorem directory_of_follow (h : t.follow place (step :: steps) = .ok q) :
    t.node? place = some .directory := by
  cases hnode : t.node? place with
  | none => simp [follow, hnode] at h
  | some node =>
    cases node with
    | file text => simp [follow, hnode] at h
    | directory => rfl

theorem follow_moves (h : t.follow place steps = .ok q) :
    t.follow place (steps.filter (· ≠ .stay)) = .ok q := by
  induction steps generalizing place with
  | nil => exact h
  | cons step steps ih =>
    have hdir := directory_of_follow h
    rw [follow_cons] at h
    by_cases hstay : step = .stay
    · subst hstay
      rw [follow_stay hdir] at h
      exact ih h
    · rw [List.filter_cons_of_pos (by simpa using hstay), follow_cons]
      cases hstep : t.follow place [step] with
      | error fault =>
        rw [hstep] at h
        cases h
      | ok r =>
        rw [hstep] at h
        exact ih h

theorem follow_dropLast (h : t.follow place steps = .ok q) (hnil : steps ≠ []) :
    ∃ r, t.follow place steps.dropLast = .ok r ∧ t.node? r = some .directory := by
  rw [← List.dropLast_concat_getLast hnil, follow_append] at h
  cases hfront : t.follow place steps.dropLast with
  | error fault =>
    rw [hfront] at h
    cases h
  | ok r =>
    rw [hfront] at h
    exact ⟨r, rfl, directory_of_follow h⟩

/-! ## Making the directory of a file -/

theorem makeDirs_of_directory {rooted : Bool} (hwritten : ∀ s ∈ steps, s.Written)
    (hfault : steps ≠ [] → pathFault? (pathOf rooted steps) = none)
    (hfollow : t.follow (if rooted then [] else t.start) steps = .ok q)
    (hdir : t.node? q = some .directory) : t.makeDirs rooted steps.reverse = (.ok (), t) := by
  by_cases hnil : steps = []
  · subst hnil
    rfl
  have hlocate : t.locateBy (pathOf rooted steps) steps = .ok q := by
    rw [locateBy, hfault hnil, isRooted_pathOf rooted hwritten hnil, hfollow]
  have hmake : t.makeDir (pathOf rooted steps) = .error .alreadyExists := by
    rw [makeDir, pathSteps_pathOf rooted hwritten, hlocate]
    simp only [hdir]
  have hstays : t.locate (pathOf rooted steps) = .ok q := by
    rw [locate, locateBy, hfault hnil, isRooted_pathOf rooted hwritten hnil,
      pathSteps_pathOf rooted hwritten, follow_append, hfollow]
    cases endsInSlash (pathOf rooted steps) with
    | true => exact follow_stay hdir
    | false => rfl
  have hhas : t.hasDir (pathOf rooted steps) = true := by
    simp only [hasDir, look, hstays, hdir]
  obtain ⟨last, front, hreverse⟩ := List.exists_cons_of_ne_nil (List.reverse_ne_nil_iff.mpr hnil)
  have hsteps : (last :: front).reverse = steps := by rw [← hreverse, List.reverse_reverse]
  rw [hreverse, makeDirs, hsteps, hmake]
  simp only [hmake, hhas, if_true]

variable {path old : String}

theorem exists_place_of_file (h : t.look path = .ok (.file old)) :
    ∃ place, pathFault? path = none ∧ endsInSlash path = false ∧
      t.follow (if isRooted path then [] else t.start) (pathSteps path) = .ok place ∧
      t.node? place = some (.file old) := by
  rw [look, locate, locateBy] at h
  cases hfault : pathFault? path with
  | some fault => simp [hfault] at h
  | none =>
    simp only [hfault, follow_append] at h
    cases hfollow : t.follow (if isRooted path then [] else t.start) (pathSteps path) with
    | error fault => simp [hfollow, Except.bind] at h
    | ok place =>
      simp only [hfollow, Except.bind] at h
      cases hslash : endsInSlash path with
      | true =>
        -- a slash at the end asks for a directory
        simp only [hslash, if_true] at h
        cases hstay : t.follow place [.stay] with
        | error fault => simp [hstay] at h
        | ok q =>
          have hdir := directory_of_follow hstay
          obtain rfl : place = q := Except.ok.inj ((follow_stay hdir).symm.trans hstay)
          simp [hstay, hdir] at h
      | false =>
        simp only [hslash, Bool.false_eq_true, if_false, follow] at h
        cases hnode : t.node? place with
        | none => simp [hnode] at h
        | some node => exact ⟨place, rfl, rfl, rfl, by simpa [hnode] using h⟩

theorem makeParents_of_file (h : t.look path = .ok (.file old)) :
    t.makeParents path = (.ok (), t) := by
  obtain ⟨place, hfault, -, hfollow, hnode⟩ := exists_place_of_file h
  have hsub : (parentSteps path).Sublist (pathSteps path) :=
    (List.dropLast_sublist _).trans List.filter_sublist
  have hwritten : ∀ s ∈ parentSteps path, s.Written := fun s hs =>
    PathStep.written_of_mem (hsub.subset hs)
  have hmoves := follow_moves hfollow
  by_cases hnil : (pathSteps path).filter (· ≠ .stay) = []
  · rw [makeParents, parentSteps, hnil]
    rfl
  · obtain ⟨q, hfront, hdir⟩ := follow_dropLast hmoves hnil
    exact makeDirs_of_directory hwritten (fun hne => pathFault?_pathOf hne hsub hfault) hfront hdir

/-! ## Writing to a file -/

variable {new : String}

theorem node?_put (hnode : t.node? place = some (.file old)) (q : List String) :
    (t.put place (.file new)).node? q = if q = place then some (.file new) else t.node? q := by
  have hplace : place ≠ [] := by
    rintro rfl
    cases hnode
  rw [node?, node?, put]
  by_cases hq : q = place
  · subst hq
    simp [hplace, OrderedMap.get?_insert_self]
  · simp [hq, OrderedMap.get?_insert_of_ne _ _ (Ne.symm hq)]

theorem follow_put (hnode : t.node? place = some (.file old)) (q : List String)
    (steps : List PathStep) :
    (t.put place (.file new)).follow q steps = t.follow q steps := by
  induction steps generalizing q with
  | nil => rfl
  | cons step steps ih =>
    have hput : (t.put place (.file new)).node? q = _ := node?_put hnode q
    by_cases hq : q = place
    · rw [if_pos hq] at hput
      subst hq
      simp [follow, hput, hnode]
    · rw [if_neg hq] at hput
      cases hdir : t.node? q with
      | none => simp [follow, hput, hdir]
      | some node => cases node <;> cases step <;> simp [follow, hput, hdir, ih]

theorem locate_put (hnode : t.node? place = some (.file old)) (path : String) :
    (t.put place (.file new)).locate path = t.locate path := by
  rw [locate, locate, locateBy, locateBy, follow_put hnode]
  rfl

theorem look_put_self (hnode : t.node? place = some (.file old)) (h : t.locate path = .ok place) :
    (t.put place (.file new)).look path = .ok (.file new) := by
  rw [look, locate_put hnode, h]
  simp [node?_put hnode]

/-- **Writing to a path with a file puts the text in its place,** and does nothing else. -/
theorem writeDeep_of_file (new : String) (h : t.look path = .ok (.file old)) :
    ∃ place, t.locate path = .ok place ∧ t.node? place = some (.file old) ∧
      t.writeDeep path new = (.ok (), t.put place (.file new)) := by
  obtain ⟨place, hfault, hslash, hfollow, hnode⟩ := exists_place_of_file h
  have hwrite : t.write path new = .ok (t.put place (.file new)) := by
    simp only [write, edit, fileSteps, hslash, locateBy, hfault, hfollow, hnode,
      Bool.false_eq_true, if_false]
  have hlocate : t.locate path = .ok place := by
    simp only [locate, locateBy, hfault, hslash, Bool.false_eq_true, if_false, List.append_nil,
      hfollow]
  refine ⟨place, hlocate, hnode, ?_⟩
  rw [writeDeep, makeParents_of_file h]
  simp only [hwrite]

end FileTree

end ArgGrammar
