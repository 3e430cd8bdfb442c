import BareImports.Proofs.Typings.Idle

/-!
# What the crawling does once

* `downloads s events` : the files whose fetching events begin, in order; none comes twice (`nodup_downloads`);
* `scan? s e` : the file whose references an event follows; other moves add no crawls (`Acts.spawns`);
* `scanned s events` : those files, in order; none comes twice (`nodup_scanned`);
* `fallen s events` : the packages that crawls give up for their types packages, each with the number of the crawl and the
  specifier that is tried instead (`fallen_once`).
-/

namespace BareImports.Typings

open Text Cdn Location

namespace Session

variable {s s' : Session} {c : Crawl} {t : Turn} {l : Location} {i : Nat} {e : Event} {events : List Event}
  {log : List Log.Entry}

/-! ## Downloads -/

/-- The files whose fetching events begin, in order. -/
def downloads (s : Session) : List Event → List Location
  | [] => []
  | e :: events => ((s.take e).assets.drop s.assets.length).map (·.1) ++ (s.take e).downloads events

/-- Files that are asked for come behind the others. -/
theorem Does.names (hd : s.Does e s') : s.assets.map (·.1) <+: s'.assets.map (·.1) := by
  cases hd with
  | turn ht =>
    obtain ⟨t, log, -, -, rfl⟩ := ht
    show _ <+: (s.assets ++ t.asked.toList.map fun l => (l, Asset.loading (.turn l))).map (·.1)
    rw [List.map_append]
    exact List.prefix_append _ _
  | load log hj =>
    dsimp only
    rw [List.map_set, set_eq_self (by rw [List.getElem?_map, hj]; rfl)]
  | _ => exact List.prefix_rfl

/-- The files that were asked for are those whose fetching was begun. -/
theorem names_play (s : Session) (events : List Event) :
    (s.play events).assets.map (·.1) = s.assets.map (·.1) ++ s.downloads events := by
  induction events generalizing s with
  | nil => simp [play, downloads]
  | cons e events ih =>
    obtain ⟨new, hnew⟩ := (take_cases s e).names
    have hlength : s.assets.length = (s.assets.map (·.1)).length := (List.length_map _).symm
    rw [play_cons, ih, downloads, List.map_drop, ← hnew, hlength, List.drop_left, List.append_assoc]

theorem nodup_downloads (map : ImportMap) (url : String) (events : List Event) :
    ((fresh map url).downloads events).Nodup := by
  have honce := (sound_play map url events).once
  rw [names_play] at honce
  simpa [fresh] using honce

/-! ## Scans -/

/-- The file whose references a crawl follows at its next turn. -/
def scanBy? (s : Session) (c : Crawl) : Option Location :=
  match c.stage with
  | .declaration l _ => if (contentOf? s l).isSome then some l else none
  | .relative (l :: _) => if (contentOf? s l).isSome && !s.handled.contains l then some l else none
  | _ => none

/-- The file whose references an event follows. -/
def scan? (s : Session) : Event → Option Location
  | .move (.crawl i) => s.crawls[i]?.bind s.scanBy?
  | _ => none

/-- The files whose references events follow, in order. -/
def scanned (s : Session) : List Event → List Location
  | [] => []
  | e :: events => (s.scan? e).toList ++ (s.take e).scanned events

theorem scanned_concat (s : Session) (events : List Event) (e : Event) :
    s.scanned (events ++ [e]) = s.scanned events ++ ((s.play events).scan? e).toList := by
  induction events generalizing s with
  | nil => simp [scanned, play]
  | cons e' events ih => rw [List.cons_append, scanned, scanned, ih, List.append_assoc, play_cons]

theorem contentOf?_of_lookup {a : Asset} (h : s.assets.lookup l = some a) : contentOf? s l = a.text? := by
  unfold contentOf?
  rw [h]
  rfl

/-- A crawl that has no file follows no references. -/
theorem scanBy?_of_wants? (hw : c.wants? = some l) (hl : contentOf? s l = none) : s.scanBy? c = none := by
  unfold Crawl.wants? at hw
  unfold scanBy?
  split at hw
  · next hstage _ => rw [hstage]
  · next hstage => rw [hstage]
  · next hstage =>
    obtain rfl := Option.some.inj hw
    rw [hstage]
    simp [hl]
  · next hstage =>
    obtain rfl := Option.some.inj hw
    rw [hstage]
    simp [hl]
  · exact absurd hw (by simp)

theorem Waits.scanBy? (h : s.Waits c) : s.scanBy? c = none := by
  rcases h with ⟨f, hstage⟩ | ⟨l, w, hwants, hl⟩
  · rw [Session.scanBy?, hstage]
  · exact scanBy?_of_wants? hwants (contentOf?_of_lookup hl)

/-- A crawl that is told a location reads no file. -/
theorem readBy?_of_told? (h : s.told? c = some l) : s.scanBy? c = none ∧ readBy? c = none := by
  unfold told? at h
  unfold scanBy? readBy?
  split at h
  · next hstage => simp [hstage]
  · next hstage => simp [hstage]
  · next hstage => simp [hstage]
  · exact absurd h (by simp)

theorem Ranged.readBy? (h : s.Ranged c l) : s.scanBy? c = none ∧ readBy? c = none := by
  unfold scanBy? Session.readBy?
  cases h with
  | specifier hc => simp [hc]
  | manifest hc => simp [hc]

/-- A turn adds crawls for the references of the file that it follows, and no other ones. -/
theorem Acts.spawns (h : s.Acts t) : (t.spawned = [] ∧ s.scanBy? t.before = none) ∨
    ∃ l content manifest, s.scanBy? t.before = some l ∧ s.assets.lookup l = some (.known (some content)) ∧
      t.spawned = (references content).map (Crawl.ofReference (some l) manifest) := by
  cases h with
  | @follow c l whole content hc hl =>
    refine Or.inr ⟨l, content, .package ⟨l.pkg, l.version⟩, ?_, hl, ?_⟩
    · simp [scanBy?, hc, contentOf?_of_lookup hl, Asset.text?]
    · dsimp only
  | @followRelative c l rest content hc hl hh =>
    refine Or.inr ⟨l, content, c.manifest, ?_, hl, ?_⟩
    · simp [scanBy?, hc, contentOf?_of_lookup hl, Asset.text?, hh]
    · dsimp only
  | ask hw hl => exact Or.inl ⟨rfl, scanBy?_of_wants? hw (by rw [contentOf?, hl]; rfl)⟩
  | enter ht | meet ht | declare ht => exact Or.inl ⟨rfl, (readBy?_of_told? ht).1⟩
  | inquire hl => exact Or.inl ⟨rfl, hl.readBy?.1⟩
  | miss hc hl | next hc hl =>
    refine Or.inl ⟨rfl, ?_⟩
    simp [scanBy?, hc, contentOf?_of_lookup hl, Asset.text?]
  | meetRelative hc hl hh => exact Or.inl ⟨rfl, by simp [scanBy?, hc, hh]⟩
  | leave hc | seek hc | stumble hc | wait hc | unresolved hc | stumbleEntry hc | meetEntry hc | declareEntry hc
  | exhaust hc => exact Or.inl ⟨rfl, by simp [scanBy?, hc]⟩

/-- A move that follows no references adds no crawls. -/
theorem crawls_of_scan? {m : Move} (h : s.scan? (.move m) = none) :
    (s.take (.move m)).crawls.length = s.crawls.length := by
  have hd := take_cases s (.move m)
  generalize s.take (.move m) = s' at hd ⊢
  cases hd with
  | @turn i _ ht =>
    obtain ⟨t, log, hacts, hb, rfl⟩ := ht
    have hnone : s.scanBy? t.before = none := by
      have hbind : s.crawls[i]?.bind s.scanBy? = none := h
      rwa [hb] at hbind
    rcases hacts.spawns with ⟨hspawned, -⟩ | ⟨l, -, -, hl, -⟩
    · show (s.crawls.set i _ ++ t.spawned).length = _
      rw [hspawned, List.append_nil, List.length_set]
    · exact absurd (hnone.symm.trans hl) (by simp)
  | add he => exact absurd rfl (he _)
  | _ => rfl

theorem readBy?_fallBackStage (pkg : String) : readBy? { c with stage := fallBackStage pkg } = none := by
  unfold fallBackStage
  split <;> rfl

theorem readBy?_unresolvedStage (f : Failure) : readBy? { c with stage := unresolvedStage l f } = none := by
  unfold unresolvedStage
  split
  · rfl
  · split
    · exact readBy?_fallBackStage _
    · rfl

/-- A file that a crawl follows, or goes on to read, is the one that it has read or the one that it takes over. -/
theorem Acts.gains (h : s.Acts t) : List.Sublist
    ((s.scanBy? t.before).toList ++ (readBy? { t.before with stage := t.after }).toList)
    ((readBy? t.before).toList ++ t.handled.toList) := by
  cases h with
  | @ask c l hw hl =>
    rw [scanBy?_of_wants? hw (by rw [contentOf?, hl]; rfl)]
    simp
  | @follow c l whole content hc hl =>
    have hscan : s.scanBy? c = some l := by simp [scanBy?, hc, contentOf?_of_lookup hl, Asset.text?]
    simp [hscan, readBy?, hc]
  | @followRelative c l rest content hc hl hh =>
    have hscan : s.scanBy? c = some l := by simp [scanBy?, hc, contentOf?_of_lookup hl, Asset.text?, hh]
    simp [hscan, readBy?]
  | declare ht => simp [(readBy?_of_told? ht).1, readBy?]
  | declareEntry hc => simp [scanBy?, readBy?, hc]
  | enter ht | meet ht => simp [(readBy?_of_told? ht).1, readBy?]
  | inquire hl => simp [hl.readBy?.1, readBy?]
  | unresolved hc => simp [scanBy?, hc, readBy?_unresolvedStage]
  | @miss c l whole hc hl =>
    have hscan : s.scanBy? c = none := by simp [scanBy?, hc, contentOf?_of_lookup hl, Asset.text?]
    cases whole
    · simp [hscan, readBy?]
    · simp [hscan, readBy?_fallBackStage]
  | next hc hl => simp [scanBy?, hc, contentOf?_of_lookup hl, Asset.text?, readBy?]
  | meetRelative hc hl hh => simp [scanBy?, hc, hh, readBy?]
  | leave hc | seek hc | stumble hc | wait hc | stumbleEntry hc | meetEntry hc | exhaust hc => simp [scanBy?, hc, readBy?]

theorem Acts.not_mem_handled (h : s.Acts t) (hl : t.handled = some l) : l ∉ s.handled := by
  cases h with
  | declare _ _ hh | declareEntry _ _ _ hh | followRelative _ _ hh => exact Option.some.inj hl ▸ hh
  | _ => exact absurd hl (by simp)

theorem readBy?_ofReference (referrer : Option Location) (manifest : ManifestSource) (r : Reference) :
    readBy? (Crawl.ofReference referrer manifest r) = none := by
  cases r <;> rfl

/-- Each file is followed once at most, and one that is to be read is read by one crawl, and was not followed before. -/
structure Once (scanned : List Location) (s : Session) : Prop where
  /-- No file comes twice. -/
  nodup : (scanned ++ s.crawls.filterMap readBy?).Nodup
  /-- All were taken over. -/
  handled : ∀ l ∈ scanned ++ s.crawls.filterMap readBy?, l ∈ s.handled

/-- A crawl that goes on elsewhere: what is found in the others stays. -/
theorem filterMap_set_perm {α β : Type} (f : α → Option β) {xs : List α} {i : Nat} {x : α} (y : α) (h : xs[i]? = some x) :
    (xs.filterMap f).Perm ((f x).toList ++ (xs.eraseIdx i).filterMap f) ∧
      ((xs.set i y).filterMap f).Perm ((f y).toList ++ (xs.eraseIdx i).filterMap f) := by
  obtain ⟨hlt, rfl⟩ := List.getElem?_eq_some_iff.1 h
  have hcons : ∀ z, (z :: xs.eraseIdx i).filterMap f = (f z).toList ++ (xs.eraseIdx i).filterMap f := fun z => by
    cases hz : f z <;> simp [hz]
  refine ⟨?_, ?_⟩
  · rw [← hcons]
    exact ((List.getElem_cons_eraseIdx_perm hlt).filterMap f).symm
  · rw [← hcons]
    exact (List.set_perm_cons_eraseIdx hlt y).filterMap f

variable {found : List Location}

theorem Once.turn (h : Once found s) (hacts : s.Acts t) (hb : s.crawls[i]? = some t.before) :
    Once (found ++ (s.scanBy? t.before).toList) (s.after i t log) := by
  have hspawned : t.spawned.filterMap readBy? = [] := by
    refine List.filterMap_eq_nil_iff.2 fun c hc => ?_
    obtain ⟨l, manifest, r, rfl⟩ := hacts.spawned hc
    exact readBy?_ofReference _ _ _
  obtain ⟨hold, hnew⟩ := filterMap_set_perm readBy? { t.before with stage := t.after } hb
  -- what is found behind the turn was there before it, but for the file that is taken over
  generalize (s.crawls.eraseIdx i).filterMap readBy? = rest at hold hnew
  have hread : (s.after i t log).crawls.filterMap readBy? = (s.crawls.set i { t.before with stage := t.after }).filterMap readBy? := by
    show (_ ++ t.spawned).filterMap readBy? = _
    rw [List.filterMap_append, hspawned, List.append_nil]
  have hsub : List.Sublist
      (found ++ ((s.scanBy? t.before).toList ++ (readBy? { t.before with stage := t.after }).toList) ++ rest)
      (found ++ ((readBy? t.before).toList ++ t.handled.toList) ++ rest) :=
    (hacts.gains.append_left found).append_right rest
  have hperm : ((found ++ (s.scanBy? t.before).toList) ++ (s.after i t log).crawls.filterMap readBy?).Perm
      (found ++ ((s.scanBy? t.before).toList ++ (readBy? { t.before with stage := t.after }).toList) ++ rest) := by
    rw [hread, List.append_assoc, List.append_assoc, List.append_assoc]
    exact (hnew.append_left _).append_left _
  have hperm' : (found ++ ((readBy? t.before).toList ++ t.handled.toList) ++ rest).Perm
      (t.handled.toList ++ (found ++ s.crawls.filterMap readBy?)) := by
    rw [List.perm_iff_count]
    intro l
    have hcount := hold.count_eq l
    simp only [List.count_append] at hcount ⊢
    omega
  refine ⟨hperm.nodup_iff.2 (hsub.nodup (hperm'.nodup_iff.2 ?_)), fun l hl => ?_⟩
  · refine List.nodup_append.2 ⟨by cases t.handled <;> simp, h.nodup, fun a ha b hb' hab => ?_⟩
    exact hacts.not_mem_handled (Option.mem_toList.1 ha) (hab ▸ h.handled b hb')
  · have hmem := hperm'.mem_iff.1 (hsub.subset (hperm.mem_iff.1 hl))
    show l ∈ t.handled.toList ++ s.handled
    rcases List.mem_append.1 hmem with hmem | hmem
    · exact List.mem_append_left _ hmem
    · exact List.mem_append_right _ (h.handled l hmem)

/-- What follows no references keeps this, if it keeps the crawls that read files, and what was taken over. -/
theorem Once.congr (h : Once found s) (hread : s'.crawls.filterMap readBy? = s.crawls.filterMap readBy?)
    (hhandled : s'.handled = s.handled) : Once found s' :=
  ⟨by rw [hread]; exact h.nodup, by rw [hread, hhandled]; exact h.handled⟩

theorem Once.take (h : Once found s) (e : Event) : Once (found ++ (s.scan? e).toList) (s.take e) := by
  rcases e with ⟨references, manifest⟩ | m
  · refine (List.append_nil found).symm ▸ h.congr ?_ rfl
    have hnone : ((references.filter Reference.isForeign).map (Crawl.ofReference none (.given manifest))).filterMap
        readBy? = [] := List.filterMap_eq_nil_iff.2 fun c hc => by
      obtain ⟨r, -, rfl⟩ := List.mem_map.1 hc
      exact readBy?_ofReference _ _ _
    show (s.crawls ++ _).filterMap readBy? = _
    rw [List.filterMap_append, hnone, List.append_nil]
  · cases m with
    | answer n a => exact (List.append_nil found).symm ▸ h.congr rfl rfl
    | load j =>
      have hd := take_cases s (.move (.load j))
      generalize s.take (.move (.load j)) = s' at hd ⊢
      refine (List.append_nil found).symm ▸ ?_
      cases hd with
      | rest => exact h
      | load => exact h.congr rfl rfl
      | add he => exact absurd rfl (he _)
    | crawl i =>
      show Once (found ++ (s.crawls[i]?.bind s.scanBy?).toList) (s.crawl i)
      rcases s.crawl_turns i with ⟨hsame, hwaits⟩ | ⟨t, log, hacts, hb, hafter⟩
      · have hnone : s.crawls[i]?.bind s.scanBy? = none := by
          rcases hi : s.crawls[i]? with _ | c
          · rfl
          · exact (hwaits c hi).scanBy?
        rw [hsame, hnone]
        exact (List.append_nil found).symm ▸ h
      · rw [hafter, hb]
        exact h.turn hacts hb

theorem once_play (map : ImportMap) (url : String) (events : List Event) :
    Once ((fresh map url).scanned events) ((fresh map url).play events) := by
  induction events using List.reverseRecOn with
  | nil => exact ⟨by simp [scanned, fresh, play], by simp [scanned, fresh, play]⟩
  | append_singleton events e ih =>
    rw [scanned_concat, play_concat]
    exact ih.take e

/-- The references of each file are followed once at most. -/
theorem nodup_scanned (map : ImportMap) (url : String) (events : List Event) : ((fresh map url).scanned events).Nodup :=
  (List.nodup_append.1 (once_play map url events).nodup).1

end Session

/-! ## Packages of declarations -/

variable {s s' : Session} {c : Crawl} {t : Turn} {l : Location} {i : Nat} {log : List Log.Entry}

/-- What is tried instead of a package is in the scope of the packages that hold declarations of others. -/
theorem startsWith_typesPackage (pkg : String) : startsWith typesScope (typesPackage pkg).toList = true := by
  have hscope : ∀ name : String, startsWith typesScope (typesScope ++ name).toList = true := fun name => by
    rw [startsWith, List.isPrefixOf_iff_prefix, String.toList_append]
    exact List.prefix_append _ _
  unfold typesPackage
  split
  · split
    · exact hscope _
    · exact hscope _
  · exact hscope _

/-- A specifier in that scope names a package in it. -/
theorem startsWith_of_parse? {x : List Char} (hx : startsWith typesScope x = true) (hl : Location.parse? x = some l) :
    startsWith typesScope l.pkg.toList = true := by
  rw [startsWith, List.isPrefixOf_iff_prefix] at hx ⊢
  obtain ⟨rest, rfl⟩ := hx
  have hscope : typesScope.toList = '@' :: ("types".toList ++ ['/']) := by decide
  obtain ⟨r, hcut, -⟩ := parse?_parts hl
  have hrun : run? isNameChar ("types".toList ++ '/' :: rest) = some ("types".toList, '/' :: rest) :=
    run?_append (by decide) (List.all_eq_true.1 (by decide)) (by simp [isNameChar])
  rw [hscope, List.cons_append, List.append_assoc, List.singleton_append, cutPackage?, hrun] at hcut
  simp only [Option.bind_eq_bind, Option.bind_some] at hcut
  obtain ⟨⟨name, r'⟩, -, hcut⟩ := Option.bind_eq_some_iff.1 hcut
  obtain ⟨hpkg, -⟩ := Prod.mk.inj (Option.some.inj hcut)
  rw [← hpkg, hscope]
  exact ⟨name, by simp⟩

/-- Whether a stage is about a package in that scope. -/
def Stage.isTyped : Stage → Bool
  | .bare specifier => startsWith typesScope specifier.toList
  | .range l | .version l _ | .entry l | .declaration l _ => startsWith typesScope l.pkg.toList
  | .relative _ => false
  | .ended _ => true

theorem isTyped_fallBackStage (pkg : String) : (fallBackStage pkg).isTyped = true := by
  unfold fallBackStage
  split
  · rfl
  · exact startsWith_typesPackage pkg

theorem isTyped_unresolvedStage (l : Location) (f : Failure) : (unresolvedStage l f).isTyped = true := by
  unfold unresolvedStage
  split
  · rfl
  · split
    · exact isTyped_fallBackStage _
    · rfl

namespace Session

theorem Ranged.isTyped (h : s.Ranged c l) (hc : c.stage.isTyped = true) : startsWith typesScope l.pkg.toList = true := by
  cases h with
  | specifier hstage _ hl =>
    rw [hstage] at hc
    exact startsWith_of_parse? hc hl
  | manifest hstage =>
    rw [hstage] at hc
    exact hc

theorem isTyped_of_told? (h : s.told? c = some l) (hc : c.stage.isTyped = true) :
    startsWith typesScope l.pkg.toList = true := by
  unfold told? at h
  split at h
  · next hstage =>
    rw [hstage] at hc
    split at h
    · exact absurd h (by simp)
    · exact startsWith_of_parse? hc (Option.filter_eq_some_iff.1 h).1
  · next hstage =>
    rw [hstage] at hc
    split at h
    · obtain ⟨hk, -⟩ := Option.filter_eq_some_iff.1 h
      rw [← Option.some.inj hk]
      exact hc
    · exact absurd h (by simp)
  · next hstage =>
    rw [hstage] at hc
    split at h
    · rw [← Option.some.inj h]
      exact hc
    · exact absurd h (by simp)
  · exact absurd h (by simp)

/-- A crawl stays in that scope. -/
theorem Acts.isTyped (h : s.Acts t) (hc : t.before.stage.isTyped = true) : t.after.isTyped = true := by
  cases h with
  | ask => exact hc
  | seek hstage _ hl =>
    dsimp only at hc
    rw [hstage] at hc
    exact startsWith_of_parse? hc hl
  | inquire hl => exact hl.isTyped hc
  | wait hstage | declareEntry hstage =>
    dsimp only at hc
    rw [hstage] at hc
    exact hc
  | unresolved => exact isTyped_unresolvedStage _ _
  | enter ht => exact isTyped_of_told? ht hc
  | @declare c l ht =>
    show startsWith typesScope l.pkg.toList = true
    exact isTyped_of_told? ht hc
  | miss =>
    dsimp only
    split
    · exact isTyped_fallBackStage _
    · rfl
  | next hstage =>
    dsimp only at hc
    rw [hstage] at hc
    exact absurd hc (by simp [Stage.isTyped])
  | _ => rfl

end Session

/-! ## Packages that are given up -/

/-- A crawl gives up a package for the one that holds its declarations. -/
structure Fall where
  /-- The number of the crawl. -/
  crawl : Nat
  /-- The package. -/
  pkg : String
  /-- The specifier that is tried instead. -/
  other : String

namespace Session

/-- The package that a crawl gives up as it goes on in another stage. -/
def fallOf? (i : Nat) : Stage → Stage → Option Fall
  | .version l _, .bare specifier | .declaration l _, .bare specifier => some ⟨i, l.pkg, specifier⟩
  | _, _ => none

/-- The package that a crawl gives up at an event. -/
def fall? (s : Session) : Event → Option Fall
  | .move (.crawl i) => do fallOf? i (← s.crawls[i]?).stage (← (s.crawl i).crawls[i]?).stage
  | _ => none

/-- The packages that crawls give up, in order. -/
def fallen (s : Session) : List Event → List Fall
  | [] => []
  | e :: events => (s.fall? e).toList ++ (s.take e).fallen events

theorem fallen_concat (s : Session) (events : List Event) (e : Event) :
    s.fallen (events ++ [e]) = s.fallen events ++ ((s.play events).fall? e).toList := by
  induction events generalizing s with
  | nil => simp [fallen, play]
  | cons e' events ih => rw [List.cons_append, fallen, fallen, ih, List.append_assoc, play_cons]

theorem eq_of_fallBackStage {pkg specifier : String} (h : fallBackStage pkg = .bare specifier) :
    startsWith typesScope pkg.toList = false ∧ specifier = typesPackage pkg := by
  unfold fallBackStage at h
  split at h
  · exact absurd h (by simp)
  · next hno => exact ⟨by simpa using hno, (Stage.bare.inj h).symm⟩

theorem eq_of_unresolvedStage {f : Failure} {specifier : String} (h : unresolvedStage l f = .bare specifier) :
    startsWith typesScope l.pkg.toList = false ∧ specifier = typesPackage l.pkg := by
  unfold unresolvedStage at h
  split at h
  · exact absurd h (by simp)
  · split at h
    · exact eq_of_fallBackStage h
    · exact absurd h (by simp)

/-- A crawl has a bare specifier again only where it gives up a package. -/
theorem Acts.bare (h : s.Acts t) {specifier : String} (ha : t.after = .bare specifier) : ∃ l,
    ((∃ w, t.before.stage = .version l w) ∨ ∃ whole, t.before.stage = .declaration l whole) ∧
      startsWith typesScope l.pkg.toList = false ∧ specifier = typesPackage l.pkg := by
  cases h with
  | ask hw =>
    dsimp only at ha
    exact absurd hw (by simp [Crawl.wants?, ha])
  | @unresolved c l w f hc => exact ⟨l, Or.inl ⟨w, hc⟩, eq_of_unresolvedStage ha⟩
  | @miss c l whole hc =>
    cases whole
    · exact absurd ha (by simp)
    · exact ⟨l, Or.inr ⟨true, hc⟩, eq_of_fallBackStage ha⟩
  | _ => exact absurd ha (by simp)

/-- A package that is given up is none of declarations, and the one of its declarations is tried instead. -/
theorem Acts.fall (h : s.Acts t) {f : Fall} (hf : fallOf? i t.before.stage t.after = some f) :
    f.crawl = i ∧ t.before.stage.isTyped = false ∧ t.after.isTyped = true ∧ startsWith typesScope f.pkg.toList = false ∧
      f.other = typesPackage f.pkg := by
  obtain ⟨specifier, hafter⟩ : ∃ specifier, t.after = .bare specifier := by
    unfold fallOf? at hf
    split at hf
    · next specifier _ hafter => exact ⟨specifier, hafter⟩
    · next specifier _ hafter => exact ⟨specifier, hafter⟩
    · exact absurd hf (by simp)
  obtain ⟨l, ⟨w, hbefore⟩ | ⟨whole, hbefore⟩, hscope, rfl⟩ := h.bare hafter
  all_goals
    rw [hbefore, hafter] at hf
    obtain rfl := Option.some.inj hf
    rw [hbefore, hafter]
    exact ⟨rfl, hscope, startsWith_typesPackage l.pkg, hscope, rfl⟩

/-- Each crawl gives up one package at most, which is none of declarations: behind that it stays in their scope. -/
structure Fallen (fallen : List Fall) (s : Session) : Prop where
  /-- Each crawl once. -/
  nodup : (fallen.map (·.crawl)).Nodup
  /-- Crawls that have given up a package stay in the scope. -/
  typed : ∀ f ∈ fallen, ∀ c, s.crawls[f.crawl]? = some c → c.stage.isTyped = true
  /-- The crawls are there. -/
  there : ∀ f ∈ fallen, f.crawl < s.crawls.length
  /-- The packages are none of declarations, and those of their declarations are tried instead. -/
  packages : ∀ f ∈ fallen, startsWith typesScope f.pkg.toList = false ∧ f.other = typesPackage f.pkg

variable {falls : List Fall}

/-- What leaves the crawls in their places keeps this. -/
theorem Fallen.mono (h : Fallen falls s) (hsame : ∀ i, i < s.crawls.length → s'.crawls[i]? = s.crawls[i]?) :
    Fallen falls s' where
  nodup := h.nodup
  typed f hf c hc := h.typed f hf c ((hsame _ (h.there f hf)).symm.trans hc)
  there f hf := by
    have hlt := h.there f hf
    refine (List.getElem?_eq_some_iff.1 ((hsame _ hlt).trans (List.getElem?_eq_getElem hlt))).1
  packages := h.packages

theorem Fallen.turn (h : Fallen falls s) (hacts : s.Acts t) (hb : s.crawls[i]? = some t.before) :
    Fallen (falls ++ (fallOf? i t.before.stage t.after).toList) (s.after i t log) := by
  have hlt := (List.getElem?_eq_some_iff.1 hb).1
  have hother : ∀ j, j < s.crawls.length → (s.after i t log).crawls[j]? =
      if i = j then some { t.before with stage := t.after } else s.crawls[j]? := fun j hj => by
    show (s.crawls.set i _ ++ t.spawned)[j]? = _
    rw [List.getElem?_append_left (by simpa using hj), List.getElem?_set]
    simp [hlt]
  have hlength : ∀ {j}, j < s.crawls.length → j < (s.after i t log).crawls.length := fun {j} hj => by
    show j < (s.crawls.set i _ ++ t.spawned).length
    rw [List.length_append, List.length_set]
    omega
  refine ⟨?_, fun f hf c hc => ?_, fun f hf => ?_, fun f hf => ?_⟩
  · rcases hfall : fallOf? i t.before.stage t.after with _ | f
    · simpa using h.nodup
    · obtain ⟨rfl, huntyped, -⟩ := hacts.fall hfall
      rw [Option.toList_some, List.map_append, List.nodup_append]
      refine ⟨h.nodup, by simp, fun a ha b hb' hab => ?_⟩
      obtain ⟨g, hg, rfl⟩ := List.mem_map.1 ha
      obtain rfl : b = f.crawl := by simpa using hb'
      have htyped := h.typed g hg t.before (by rw [hab]; exact hb)
      rw [huntyped] at htyped
      exact absurd htyped (by simp)
  · rcases List.mem_append.1 hf with hf | hf
    · rw [hother _ (h.there f hf)] at hc
      split at hc
      · next hi =>
        rw [← Option.some.inj hc]
        exact hacts.isTyped (h.typed f hf _ (hi ▸ hb))
      · exact h.typed f hf c hc
    · have hfall := Option.mem_toList.1 hf
      obtain ⟨rfl, -, htyped, -⟩ := hacts.fall hfall
      rw [hother _ hlt, if_pos rfl] at hc
      exact Option.some.inj hc ▸ htyped
  · rcases List.mem_append.1 hf with hf | hf
    · exact hlength (h.there f hf)
    · rw [(hacts.fall (Option.mem_toList.1 hf)).1]
      exact hlength hlt
  · rcases List.mem_append.1 hf with hf | hf
    · exact h.packages f hf
    · exact (hacts.fall (Option.mem_toList.1 hf)).2.2.2

theorem fallOf?_self (stage : Stage) : fallOf? i stage stage = none := by
  cases stage <;> rfl

theorem Fallen.take (h : Fallen falls s) (e : Event) : Fallen (falls ++ (s.fall? e).toList) (s.take e) := by
  rcases e with ⟨references, manifest⟩ | m
  · exact (List.append_nil falls).symm ▸ h.mono fun i hi => List.getElem?_append_left hi
  · cases m with
    | answer n a => exact (List.append_nil falls).symm ▸ h.mono fun _ _ => rfl
    | load j =>
      have hd := take_cases s (.move (.load j))
      generalize s.take (.move (.load j)) = s' at hd ⊢
      refine (List.append_nil falls).symm ▸ ?_
      cases hd with
      | rest => exact h
      | load => exact h.mono fun _ _ => rfl
      | add he => exact absurd rfl (he _)
    | crawl i =>
      show Fallen (falls ++ (s.fall? (.move (.crawl i))).toList) (s.crawl i)
      have hfall : ∀ c c', s.crawls[i]? = some c → (s.crawl i).crawls[i]? = some c' →
          s.fall? (.move (.crawl i)) = fallOf? i c.stage c'.stage := fun c c' hc hc' => by simp [fall?, hc, hc']
      rcases s.crawl_turns i with ⟨hsame, -⟩ | ⟨t, log, hacts, hb, hafter⟩
      · have hnone : s.fall? (.move (.crawl i)) = none := by
          rcases hi : s.crawls[i]? with _ | c
          · simp [fall?, hi]
          · rw [hfall c c hi (by rw [hsame, hi]), fallOf?_self]
        rw [hnone, hsame]
        exact (List.append_nil falls).symm ▸ h
      · have hlt := (List.getElem?_eq_some_iff.1 hb).1
        have hself : (s.after i t log).crawls[i]? = some { t.before with stage := t.after } := by
          show (s.crawls.set i _ ++ t.spawned)[i]? = _
          rw [List.getElem?_append_left (by simpa using hlt), List.getElem?_set_self hlt]
        rw [hfall t.before _ hb (by rw [hafter]; exact hself), hafter]
        exact h.turn hacts hb

theorem fallen_play (map : ImportMap) (url : String) (events : List Event) :
    Fallen ((fresh map url).fallen events) ((fresh map url).play events) := by
  induction events using List.reverseRecOn with
  | nil => exact ⟨by simp [fallen], by simp [fallen], by simp [fallen], by simp [fallen]⟩
  | append_singleton events e ih =>
    rw [fallen_concat, play_concat]
    exact ih.take e

/-- Each crawl gives up one package at most, and what is tried instead of one is given up by none. -/
theorem fallen_once (map : ImportMap) (url : String) (events : List Event) :
    (((fresh map url).fallen events).map (·.crawl)).Nodup ∧
      ∀ f ∈ (fresh map url).fallen events, f.other = typesPackage f.pkg ∧ ∀ l, Location.parse? f.other.toList = some l →
        ∀ g ∈ (fresh map url).fallen events, g.pkg ≠ l.pkg := by
  have h := fallen_play map url events
  refine ⟨h.nodup, fun f hf => ⟨(h.packages f hf).2, fun l hl g hg hpkg => ?_⟩⟩
  have htyped := startsWith_of_parse? (by rw [(h.packages f hf).2]; exact startsWith_typesPackage _) hl
  rw [← hpkg, (h.packages g hg).1] at htyped
  exact absurd htyped (by simp)

end Session

end BareImports.Typings
