import XmlRecords.Proofs.References

/-!
# Reading types

All readers of schema documents call each other, with a bounded number of steps,
which is what the induction is on.  Types that are being read are found by their
names along references.  A base has to be complete before the derivation from it is
read any further, so bases lead from a complete type to an end.
-/

namespace XmlRecords

namespace Reader

/-- From the declaration of a type on, the reader ends the type with a number, be
it one with a name, and is sound apart from that.  Bases lead to an end from the
type. -/
structure Finishes (all : Declarations) (place : Declared) (id : Nat)
    (name : Option QName) (reader : Reader Unit) : Prop where
  unfinished : ∀ r later, r.Leads all place → reader.run r = .ok ((), later) →
    later.unfinished = r.unfinished.erase id
  continues : ∀ r later, r.Leads all place → reader.run r = .ok ((), later) →
    r.Continues { later with unfinished := r.unfinished }
  settles : ∀ r later, r.Leads all place → r.Settled all →
    (∀ own, name = some own → ∃ id, r.named.lookup own = some id) →
      reader.run r = .ok ((), later) →
        Reading.Settled all { later with unfinished := r.unfinished }
  grounds : ∀ own, all.complexTypes.lookup own = some place →
    Ensures all place (Acc all.Derives own) reader
  loops : ∀ r path name, r.Leads all place →
    reader.run r = .error (.load path (.selfDerived name)) → all.Loops path name

/-- All readers are sound within a number of steps. -/
structure AllSound (all : Declarations) (fuel : Nat) : Prop where
  typeRef : ∀ place setting name, Declared.RefersByName all place name →
    Sound all place (readTypeRef all fuel setting name) ∧
      ∀ r type later, r.Leads all place →
        (readTypeRef all fuel setting name).run r = .ok (type, later) →
          later.StandsFor all name type
  complexType : ∀ id name declared,
    Finishes all declared id name (readComplexType all fuel id name declared)
  part : ∀ setting part type,
    Sound all ⟨setting, part⟩ (readPart all fuel setting part type)
  base : ∀ setting node,
    Sound all ⟨setting, node⟩ (readBase all fuel setting node) ∧
      Ensures all ⟨setting, node⟩ (all.Grounds ⟨setting, node⟩)
        (readBase all fuel setting node)
  complexContent : ∀ setting node type,
    Sound all ⟨setting, node⟩ (readComplexContent all fuel setting node type) ∧
      Ensures all ⟨setting, node⟩
        (∀ derivation ∈ node.components, all.Grounds ⟨setting, derivation⟩)
        (readComplexContent all fuel setting node type)
  simpleContent : ∀ setting node type,
    Sound all ⟨setting, node⟩ (readSimpleContent all fuel setting node type) ∧
      Ensures all ⟨setting, node⟩
        (∀ derivation ∈ node.components, all.Grounds ⟨setting, derivation⟩)
        (readSimpleContent all fuel setting node type)
  element : ∀ declared isTop,
    Sound all declared (readElementDecl all fuel declared isTop)
  particle : ∀ setting node,
    Sound all ⟨setting, node⟩ (readParticle all fuel setting node)
  particles : ∀ group, Sound all group (readParticles all fuel group)
  attributeUse : ∀ setting node,
    Sound all ⟨setting, node⟩ (readAttributeUse all fuel setting node)
  attributeGroup : ∀ setting node type,
    Sound all ⟨setting, node⟩ (readAttributeGroup all fuel setting node type)

variable {all : Declarations} {fuel : Nat} {place declared : Declared}
  {setting : Setting} {node : Xml.ScopedElement} {name : Option QName}
  {r begun later : Reading}

/-- What is read into a type leaves the name of the type as it is. -/
structure AllNamed (all : Declarations) (fuel : Nat) (name : Option QName) :
    Prop where
  part : ∀ setting part type, type.name = name →
    Returns (·.name = name) (readPart all fuel setting part type)
  complexContent : ∀ setting node type, type.name = name →
    Returns (·.name = name) (readComplexContent all fuel setting node type)
  simpleContent : ∀ setting node type, type.name = name →
    Returns (·.name = name) (readSimpleContent all fuel setting node type)
  attributeGroup : ∀ setting node type, type.name = name →
    Returns (·.name = name) (readAttributeGroup all fuel setting node type)

theorem AllNamed.parts {name : Option QName} (below : AllNamed all fuel name)
    (setting : Setting) (parts : List Xml.ScopedElement) {type : ComplexType}
    (same : type.name = name) :
    Returns (·.name = name) (parts.foldlM (fun type part =>
      readPart all fuel setting part type) type) :=
  .foldlM (fun type part same => below.part setting part type same) same

theorem allNamed (all : Declarations) (fuel : Nat) (name : Option QName) :
    AllNamed all fuel name := by
  induction fuel with
  | zero =>
      refine ⟨?_, ?_, ?_, ?_⟩
      · intro setting part type _
        rw [readPart]
        exact .fail setting _
      · intro setting node type _
        rw [readComplexContent]
        exact .fail setting _
      · intro setting node type _
        rw [readSimpleContent]
        exact .fail setting _
      · intro setting node type _
        rw [readAttributeGroup]
        exact .fail setting _
  | succ fuel below =>
      refine ⟨?_, ?_, ?_, ?_⟩
      · intro setting part type same
        rw [readPart]
        split
        all_goals first
          | exact .pure same
          | exact below.attributeGroup setting part type same
          | refine .bind _ fun found => ?_
        any_goals split
        all_goals exact .pure same
      · intro setting node type same
        rw [readComplexContent]
        refine .foldlM (fun type derivation same => .bind _ fun base => ?_) same
        dsimp only
        split
        · exact .pure same
        · split
          · exact .bind _ fun base => below.parts setting _ same
          · exact below.parts setting _ same
      · intro setting node type same
        rw [readSimpleContent]
        refine .foldlM (fun type derivation same => .bind _ fun base => ?_) same
        split
        · exact below.parts setting _ same
        · exact .bind _ fun base => below.parts setting _ same
        · exact below.parts setting _ same
      · intro setting node type same
        rw [readAttributeGroup]
        split
        · exact .fail setting _
        · refine .bind _ fun name => .bind _ fun group => ?_
          exact below.parts group.setting _ same

/-- A type has been begun, be it one with a name: it comes behind all others, and a
new name is that of its declaration. -/
structure Begins (all : Declarations) (declared : Declared)
    (name : Option QName) (r begun : Reading) : Prop where
  unfinished : begun.unfinished = r.types.size :: r.unfinished
  size : begun.types.size = r.types.size + 1
  keeps : ∀ name id, r.named.lookup name = some id →
    begun.named.lookup name = some id
  adds : ∀ name id, begun.named.lookup name = some id →
    r.named.lookup name = some id ∨
      id = r.types.size ∧ all.complexTypes.lookup name = some declared
  types : ∀ type ∈ begun.types, type ∈ r.types ∨ type.name = name
  own : ∀ own, name = some own → ∃ id, begun.named.lookup own = some id

theorem Begins.leads (begins : Begins all declared name r begun)
    (leads : r.Leads all place) (refers : place.Refers all declared) :
    begun.Leads all declared where
  unfinished := by
    rw [begins.unfinished, begins.size]
    intro id member
    rcases List.mem_cons.1 member with rfl | member
    · exact Nat.lt_succ_self _
    · exact Nat.lt_succ_of_lt (leads.unfinished id member)
  named := by
    rw [begins.size]
    intro name id found
    rcases begins.adds name id found with found | ⟨rfl, _⟩
    · exact Nat.lt_succ_of_lt (leads.named name id found)
    · exact Nat.lt_succ_self _
  leads := by
    intro name id found member
    rcases begins.adds name id found with found | ⟨_, declared⟩
    · rw [begins.unfinished] at member
      rcases List.mem_cons.1 member with rfl | member
      · exact absurd (leads.named name _ found) (Nat.lt_irrefl _)
      · exact (leads.refers refers).leads name id found member
    · exact ⟨_, declared, .refl⟩

/-- Once a type that was begun is complete, the same types are being read as
before. -/
theorem Begins.continues (begins : Begins all declared name r begun)
    (leads : r.Leads all place) (refers : place.Refers all declared)
    {reader : Reader Unit}
    (finishes : Finishes all declared r.types.size name reader)
    (ended : reader.run begun = .ok ((), later)) : r.Continues later := by
  have within := begins.leads leads refers
  have unfinished := finishes.unfinished begun later within ended
  have continues := finishes.continues begun later within ended
  have size := begins.size
  have grows : begun.types.size ≤ later.types.size := continues.grows
  refine ⟨?_, by omega, ?_, ?_⟩
  · rw [unfinished, begins.unfinished, List.erase_cons_head]
  · exact fun name id found =>
      continues.keeps name id (begins.keeps name id found)
  · intro name id found
    rcases continues.adds name id found with found | ⟨new, inside⟩
    · rcases begins.adds name id found with found | ⟨rfl, _⟩
      · exact .inl found
      · exact .inr ⟨Nat.le_refl _, by omega⟩
    · exact .inr ⟨by omega, inside⟩

theorem Begins.settled (begins : Begins all declared name r begun)
    (settled : r.Settled all) : begun.Settled all where
  grounded := by
    intro other id found complete
    rw [begins.unfinished, List.mem_cons, not_or] at complete
    rcases begins.adds other id found with found | ⟨isNew, _⟩
    · exact settled.grounded other id found complete.2
    · exact absurd isNew complete.1
  names := by
    intro type member other named
    rcases begins.types type member with member | same
    · obtain ⟨id, found⟩ := settled.names type member other named
      exact ⟨id, begins.keeps other id found⟩
    · exact begins.own other (same.symm.trans named)

/-- Once a type that was begun is complete, bases lead to an end from it too. -/
theorem Begins.settles (begins : Begins all declared name r begun)
    (leads : r.Leads all place) (refers : place.Refers all declared)
    (settled : r.Settled all) {reader : Reader Unit}
    (finishes : Finishes all declared r.types.size name reader)
    (ended : reader.run begun = .ok ((), later)) : later.Settled all := by
  have within := begins.leads leads refers
  have between := begins.settled settled
  have inside := finishes.settles begun later within between begins.own ended
  have same := (begins.continues leads refers finishes ended).unfinished
  refine ⟨fun other id found complete => ?_, inside.names⟩
  by_cases isNew : id = r.types.size
  · subst isNew
    rcases (finishes.continues begun later within ended).adds other _ found with
      found | ⟨above, _⟩
    · rcases begins.adds other _ found with found | ⟨_, isDeclared⟩
      · exact absurd (leads.named other _ found) (Nat.lt_irrefl _)
      · exact finishes.grounds other isDeclared begun () later within between ended
    · rw [begins.size] at above
      omega
  · refine inside.grounded other id found ?_
    rw [begins.unfinished, List.mem_cons, not_or, ← same]
    exact ⟨isNew, complete⟩

/-- Room has been made for a type behind all others. -/
def begin (r : Reading) (type : ComplexType) : Reading :=
  { r with
    types := r.types.push type
    unfinished := r.types.size :: r.unfinished }

/-- What reads a type that was begun, and hands something back, is sound. -/
theorem Begins.soundAt (begins : Begins all declared name r begun)
    (leads : r.Leads all place) (refers : place.Refers all declared)
    {reader : Reader Unit}
    (finishes : Finishes all declared r.types.size name reader) {α : Type}
    (result : α) :
    SoundAt all r ((reader >>= fun _ => pure result).run begun) where
  continues := by
    intro a later ended
    obtain ⟨_, between, ended, same⟩ := Run.bind_eq_ok.1 ended
    cases same
    exact begins.continues leads refers finishes ended
  settles := by
    intro a later settled ended
    obtain ⟨_, between, ended, same⟩ := Run.bind_eq_ok.1 ended
    cases same
    exact begins.settles leads refers settled finishes ended
  loops := by
    intro path name ended
    rcases Run.bind_eq_error.1 ended with ended | ⟨_, _, _, ended⟩
    · exact finishes.loops begun path name (begins.leads leads refers) ended
    · cases ended

theorem begins_plain (r : Reading) (ofElements : List (QName × Nat)) :
    Begins all declared none r { begin r {} with ofElements } where
  unfinished := rfl
  size := Array.size_push _
  keeps := fun _ _ known => known
  adds := fun _ _ known => .inl known
  types := by
    intro type member
    rcases Array.mem_push.1 member with member | rfl
    · exact .inl member
    · exact .inr rfl
  own := by simp

theorem begins_named {name : QName}
    (found : all.complexTypes.lookup name = some declared)
    (unknown : r.named.lookup name = none) :
    Begins all declared (some name) r
      { begin r { name := some name } with
        named := (name, r.types.size) :: r.named } where
  unfinished := rfl
  size := Array.size_push _
  keeps := by
    intro other id known
    rw [List.lookup_cons]
    split
    · next same =>
        rw [eq_of_beq same, unknown] at known
        cases known
    · exact known
  adds := by
    intro other id known
    rw [List.lookup_cons] at known
    split at known
    · next same =>
        rw [eq_of_beq same]
        exact .inr ⟨(Option.some.inj known).symm, found⟩
    · exact .inl known
  types := by
    intro type member
    rcases Array.mem_push.1 member with member | rfl
    · exact .inl member
    · exact .inr rfl
  own := by simp

/-- A reference to a complex type is to a type that was met before, or begins the
type. -/
theorem run_readTypeRef {name : QName} (other : name.ns ≠ some schemaNamespace)
    (found : all.complexTypes.lookup name = some declared) (r : Reading) :
    (readTypeRef all (fuel + 1) setting name).run r =
      match r.named.lookup name with
      | some id => .ok (.complex id, r)
      | none =>
          (readComplexType all fuel r.types.size (some name) declared >>= fun _ =>
            pure (.complex r.types.size)).run
              { begin r { name := some name } with
                named := (name, r.types.size) :: r.named } := by
  rw [readTypeRef, if_neg other, found]
  dsimp only
  rw [Run.get_bind]
  cases r.named.lookup name <;> rfl

theorem sound_readTypeRef (below : AllSound all fuel) {name : QName}
    (refers : place.RefersByName all name) :
    Sound all place (readTypeRef all (fuel + 1) setting name) ∧
      ∀ r type later, r.Leads all place →
        (readTypeRef all (fuel + 1) setting name).run r = .ok (type, later) →
          later.StandsFor all name type := by
  by_cases builtin : name.ns = some schemaNamespace
  · rw [readTypeRef, if_pos builtin]
    split
    all_goals
      refine ⟨.pure _, fun r type later _ ended => ?_⟩
      cases ended
      exact .simple (.inl builtin)
  cases found : all.complexTypes.lookup name with
  | none =>
      rw [readTypeRef, if_neg builtin, found]
      constructor
      · dsimp only
        split
        · exact .lift_bind (.readSimpleType all fuel _) fun _ _ => .pure _
        · exact .lift (.fail (by simp))
      · intro r type later _ ended
        dsimp only at ended
        split at ended
        · obtain ⟨_, _, _, ended⟩ := Run.bind_eq_ok.1 ended
          cases ended
          exact .simple (.inr found)
        · cases ended
  | some declared =>
      have toType := refers declared found
      have finishes := fun r : Reading =>
        below.complexType r.types.size (some name) declared
      constructor
      · intro r leads
        rw [run_readTypeRef builtin found]
        split
        · exact .ok _ r
        · next unknown =>
            exact (begins_named found unknown).soundAt leads toType (finishes r) _
      · intro r type later leads ended
        rw [run_readTypeRef builtin found] at ended
        split at ended
        · next known =>
            cases ended
            exact .complex known
        · next unknown =>
            have within := (begins_named found unknown).leads leads toType
            obtain ⟨_, between, ended, same⟩ := Run.bind_eq_ok.1 ended
            cases same
            refine .complex ?_
            refine ((finishes r).continues _ _ within ended).keeps name _ ?_
            simp

/-- A type is complete once it is put in its place.  If bases lead to an end from
all its derivations, they do from the type. -/
theorem Sound.finishes {reader : Reader ComplexType} {p : Prop}
    (sound : Sound all place reader ∧ Ensures all place p reader)
    (named : Returns (·.name = name) reader)
    (grounds : p → ∀ own, all.complexTypes.lookup own = some place →
      Acc all.Derives own) (id : Nat) :
    Finishes all place id name (reader >>= Reader.complete id) where
  unfinished := by
    intro r later leads ended
    obtain ⟨type, between, read, ended⟩ := Run.bind_eq_ok.1 ended
    cases ended
    have continues := (sound.1 r leads).continues type between read
    exact congrArg (·.erase id) continues.unfinished
  continues := by
    intro r later leads ended
    obtain ⟨type, between, read, ended⟩ := Run.bind_eq_ok.1 ended
    cases ended
    have continues := (sound.1 r leads).continues type between read
    refine ⟨rfl, ?_, continues.keeps, ?_⟩
    · simpa using continues.grows
    · simpa using continues.adds
  settles := by
    intro r later leads settled known ended
    obtain ⟨type, between, read, ended⟩ := Run.bind_eq_ok.1 ended
    cases ended
    have continues := (sound.1 r leads).continues type between read
    have inside := (sound.1 r leads).settles type between settled read
    rw [← continues.unfinished]
    refine ⟨inside.grounded, fun other member own isNamed => ?_⟩
    rcases Array.mem_or_eq_of_mem_setIfInBounds member with member | rfl
    · exact inside.names other member own isNamed
    · obtain ⟨place, found⟩ :=
        known own ((named r other between read).symm.trans isNamed)
      exact ⟨place, continues.keeps own place found⟩
  grounds := fun own found =>
    (sound.2.mono fun holds => grounds holds own found).bind _
  loops := by
    intro r path name leads ended
    rcases Run.bind_eq_error.1 ended with ended | ⟨_, _, _, ended⟩
    · exact (sound.1 r leads).loops path name ended
    · cases ended

theorem finishes_readComplexType (below : AllSound all fuel) (id : Nat)
    (name : Option QName) (declared : Declared) :
    Finishes all declared id name
      (readComplexType all (fuel + 1) id name declared) := by
  obtain ⟨setting, node⟩ := declared
  have named := allNamed all fuel name
  rw [readComplexType]
  refine Sound.finishes (Ensures.foldlM (all.GroundsPart setting)
    (fun part member type => ?_) _) ?_ ?_ id
  · have toPart : Declared.Refers all ⟨setting, node⟩ ⟨setting, part⟩ :=
      .part member
    split
    · obtain ⟨sound, grounds⟩ := below.complexContent setting part type
      exact ⟨sound.refers toPart, (grounds.refers toPart).mono fun each _ => each⟩
    · obtain ⟨sound, grounds⟩ := below.simpleContent setting part type
      exact ⟨sound.refers toPart, (grounds.refers toPart).mono fun each _ => each⟩
    · next noComplex noSimple =>
        refine ⟨(below.part setting part type).refers toPart, ?_⟩
        exact fun _ _ _ _ _ _ kind => (kind.elim noComplex noSimple).elim
  · refine .foldlM (fun type part same => ?_) rfl
    split
    · exact named.complexContent _ _ _ same
    · exact named.simpleContent _ _ _ same
    · exact named.part _ _ _ same
  · intro holds own found
    refine ⟨own, ?_⟩
    rintro base ⟨_, part, derivation, found', member, kind, inside, isBase, other⟩
    cases found.symm.trans found'
    exact holds part member kind derivation inside base isBase other

theorem sound_readPart (below : AllSound all fuel) (setting : Setting)
    (part : Xml.ScopedElement) (type : ComplexType) :
    Sound all ⟨setting, part⟩ (readPart all (fuel + 1) setting part type) := by
  rw [readPart]
  split
  any_goals exact (below.particle setting part).bind fun _ => .pure _
  · refine (below.attributeUse setting part).bind fun use => ?_
    split <;> exact .pure _
  · exact below.attributeGroup setting part type
  · exact .pure _
  · exact .pure _

/-- A base that is being read is found by its name, so references lead from it to
this derivation. -/
theorem sound_readBase (below : AllSound all fuel) (setting : Setting)
    (node : Xml.ScopedElement) :
    Sound all ⟨setting, node⟩ (readBase all (fuel + 1) setting node) := by
  rw [readBase]
  split
  · exact .pure _
  next base given =>
  refine .lift_bind (.resolve setting node base) fun name resolved => ?_
  obtain ⟨sound, standsFor⟩ := below.typeRef ⟨setting, node⟩ setting name
    (Declared.refersByName (.inr rfl) given resolved)
  split
  · exact .pure _
  intro r leads
  refine .bind (sound r leads) fun type later read => ?_
  have within := leads.continue ((sound r leads).continues type later read)
  cases standsFor r type later leads read with
  | simple plain => exact .ok _ later
  | @complex id known =>
      dsimp only
      rw [Run.get_bind]
      split
      · next reading =>
          refine .error fun path other same => ?_
          cases same
          obtain ⟨declared, found, way⟩ :=
            within.leads name id known (by simpa using reading)
          exact ⟨declared, ⟨setting, node⟩, found, way,
            Declared.named?_eq_some given resolved, rfl⟩
      · exact .ok _ later

/-- A base has to be complete, and then bases lead from it to an end. -/
theorem ensures_readBase (below : AllSound all fuel) (setting : Setting)
    (node : Xml.ScopedElement) :
    Ensures all ⟨setting, node⟩ (all.Grounds ⟨setting, node⟩)
      (readBase all (fuel + 1) setting node) := by
  rw [readBase]
  split
  · next noBase =>
      intro _ _ _ _ _ _ base named
      rw [Declared.named?, noBase] at named
      cases named
  next base given =>
  refine .lift_bind fun name resolved => ?_
  obtain ⟨sound, standsFor⟩ := below.typeRef ⟨setting, node⟩ setting name
    (Declared.refersByName (.inr rfl) given resolved)
  intro r result last leads settled ended other named notBuiltin
  cases (Declared.named?_eq_some given resolved).symm.trans named
  split at ended
  · next anything =>
      rw [anything] at notBuiltin
      exact absurd rfl notBuiltin
  obtain ⟨type, later, read, ended⟩ := Run.bind_eq_ok.1 ended
  have between := (sound r leads).settles type later settled read
  cases standsFor r type later leads read with
  | simple plain =>
      -- Only complex types have bases.
      refine ⟨name, ?_⟩
      rintro _ ⟨_, _, _, found, _⟩
      cases (plain.resolve_left notBuiltin).symm.trans found
  | @complex id known =>
      dsimp only at ended
      rw [Run.get_bind] at ended
      split at ended
      · cases ended
      · next complete =>
          exact between.grounded name id known (by simpa using complete)

/-- Attributes and particles of a derivation are parts of it. -/
theorem sound_readParts (below : AllSound all fuel) (setting : Setting)
    (parts : List Xml.ScopedElement) (subset : parts ⊆ node.components)
    (type : ComplexType) :
    Sound all ⟨setting, node⟩ (parts.foldlM (fun type part =>
      readPart all fuel setting part type) type) :=
  .foldlM (fun part member type =>
    (below.part setting part type).refers (.part (subset member))) type

theorem sound_typeAt (id : Nat) : Sound all place (typeAt id) :=
  .get_bind fun _ => .pure _

theorem sound_readComplexContent (below : AllSound all fuel) (setting : Setting)
    (node : Xml.ScopedElement) (type : ComplexType) :
    Sound all ⟨setting, node⟩
        (readComplexContent all (fuel + 1) setting node type) ∧
      Ensures all ⟨setting, node⟩
        (∀ derivation ∈ node.components, all.Grounds ⟨setting, derivation⟩)
        (readComplexContent all (fuel + 1) setting node type) := by
  rw [readComplexContent]
  refine Ensures.foldlM (all.Grounds ⟨setting, ·⟩) (fun derivation member type => ?_) type
  have toPart : Declared.Refers all ⟨setting, node⟩ ⟨setting, derivation⟩ :=
    .part member
  obtain ⟨sound, grounds⟩ := below.base setting derivation
  refine ⟨(sound.bind fun base => ?_).refers toPart, (grounds.bind _).refers toPart⟩
  dsimp only
  split
  · exact .pure _
  · split
    · exact (sound_typeAt _).bind fun base =>
        sound_readParts below setting _ (List.Subset.refl _) _
    · exact sound_readParts below setting _ (List.Subset.refl _) _

theorem sound_readSimpleContent (below : AllSound all fuel) (setting : Setting)
    (node : Xml.ScopedElement) (type : ComplexType) :
    Sound all ⟨setting, node⟩
        (readSimpleContent all (fuel + 1) setting node type) ∧
      Ensures all ⟨setting, node⟩
        (∀ derivation ∈ node.components, all.Grounds ⟨setting, derivation⟩)
        (readSimpleContent all (fuel + 1) setting node type) := by
  rw [readSimpleContent]
  refine Ensures.foldlM (all.Grounds ⟨setting, ·⟩) (fun derivation member type => ?_) type
  have toPart : Declared.Refers all ⟨setting, node⟩ ⟨setting, derivation⟩ :=
    .part member
  have attributes : ∀ type, Sound all ⟨setting, derivation⟩
      ((derivation.components.filter fun part =>
        isAttributePart part.name.name).foldlM (fun type part =>
          readPart all fuel setting part type) type) :=
    sound_readParts below setting _ (fun _ member => (List.mem_filter.1 member).1)
  obtain ⟨sound, grounds⟩ := below.base setting derivation
  refine ⟨(sound.bind fun base => ?_).refers toPart, (grounds.bind _).refers toPart⟩
  split
  · exact attributes _
  · exact (sound_typeAt _).bind fun base => attributes _
  · exact attributes _

theorem sound_readElementDecl (below : AllSound all fuel) (declared : Declared)
    (isTop : Bool) :
    Sound all declared (readElementDecl all (fuel + 1) declared isTop) := by
  obtain ⟨setting, node⟩ := declared
  rw [readElementDecl]
  dsimp only
  split
  · next _ _ reference given =>
      refine .lift_bind (.resolve setting node reference) fun name resolved => ?_
      refine .lift_bind (.lookup setting _ _ name) fun target found => ?_
      exact (below.element target true).refers (.reference (by simp)
        (Declared.named?_eq_some given resolved) (Setting.lookup_eq_ok.1 found))
  · exact .lift (.fail (by simp))
  · next name _ _ =>
      split
      · next _ _ _ value given =>
          refine .lift_bind (.resolve setting node value) fun name resolved => ?_
          exact (below.typeRef _ setting name
            (Declared.refersByName (.inl rfl) given resolved)).1.bind
              fun _ => .pure _
      · next _ _ _ inner _ found =>
          have refers : Declared.Refers all ⟨setting, node⟩ ⟨setting, inner⟩ :=
            .part (List.mem_of_find?_eq_some found)
          have finishes := fun id =>
            below.complexType id none ⟨setting, inner⟩
          refine .get_bind fun r => ?_
          split
          · exact .pure _
          · split
            · intro r leads
              exact (begins_plain r ((_, r.types.size) :: r.ofElements)).soundAt
                leads refers (finishes _) (⟨_, .complex r.types.size⟩ : ElementDecl)
            · intro r leads
              exact (begins_plain r r.ofElements).soundAt leads refers (finishes _)
                (⟨_, .complex r.types.size⟩ : ElementDecl)
      · exact .lift_bind (.readSimpleType all fuel _) fun _ _ => .pure _
      · exact .pure _

theorem sound_readParticles (below : AllSound all fuel) (group : Declared) :
    Sound all group (readParticles all (fuel + 1) group) := by
  obtain ⟨setting, node⟩ := group
  rw [readParticles]
  exact .mapM fun part member => (below.particle setting part).refers (.part member)

theorem sound_readParticle (below : AllSound all fuel) (setting : Setting)
    (node : Xml.ScopedElement) :
    Sound all ⟨setting, node⟩ (readParticle all (fuel + 1) setting node) := by
  rw [readParticle]
  refine .lift_bind (.readOccurs setting node) fun occurs _ => ?_
  split
  · exact (below.element ⟨setting, node⟩ false).bind fun _ => .pure _
  · split
    · exact .lift (.fail (by simp))
    · next reference given =>
        refine .lift_bind (.resolve setting node reference) fun name resolved => ?_
        refine .lift_bind (.lookup setting _ _ name) fun group found => ?_
        have toGroup : Declared.Refers all ⟨setting, node⟩ group :=
          .reference (by simp) (Declared.named?_eq_some given resolved)
            (Setting.lookup_eq_ok.1 found)
        split
        · exact .lift (.fail (by simp))
        · next body isBody =>
            have toBody : Declared.Refers all group ⟨group.setting, body⟩ :=
              .part (List.mem_of_find?_eq_some isBody)
            exact (((below.particles ⟨group.setting, body⟩).refers toBody).refers
              toGroup).bind fun _ => .pure _
  · exact .pure _
  · split
    · exact (below.particles ⟨setting, node⟩).bind fun _ => .pure _
    · exact .pure _

theorem sound_readAttributeGroup (below : AllSound all fuel) (setting : Setting)
    (node : Xml.ScopedElement) (type : ComplexType) :
    Sound all ⟨setting, node⟩
      (readAttributeGroup all (fuel + 1) setting node type) := by
  rw [readAttributeGroup]
  split
  · exact .lift (.fail (by simp))
  · next reference given =>
      refine .lift_bind (.resolve setting node reference) fun name resolved => ?_
      refine .lift_bind (.lookup setting _ _ name) fun group found => ?_
      have toGroup : Declared.Refers all ⟨setting, node⟩ group :=
        .reference (by simp) (Declared.named?_eq_some given resolved)
          (Setting.lookup_eq_ok.1 found)
      exact (sound_readParts below group.setting _
        (fun _ member => (List.mem_filter.1 member).1) type).refers toGroup

/-- The type of an attribute is that of its declaration, which may be one that is
referred to. -/
theorem sound_readAttributeUse (below : AllSound all fuel) (setting : Setting)
    (node : Xml.ScopedElement) :
    Sound all ⟨setting, node⟩ (readAttributeUse all (fuel + 1) setting node) := by
  rw [readAttributeUse]
  extract_lets typed
  have sound : ∀ declared name, Sound all declared (typed (declared, name)) := by
    intro declared name
    dsimp only [typed]
    split
    · next _ _ value given =>
        refine .lift_bind (.resolve _ _ value) fun type resolved => ?_
        refine (below.typeRef declared _ type
          (Declared.refersByName (.inl rfl) given resolved)).1.bind fun found => ?_
        split
        · exact .pure _
        · exact .lift_bind (.fail (by simp)) fun _ _ => .pure _
    · exact .lift_bind (.readSimpleType all fuel _) fun _ _ => .pure _
    · exact .pure _
  split
  · exact .pure _
  · split
    · next reference given =>
        refine .lift_bind (.resolve setting node reference) fun name resolved => ?_
        refine .lift_bind (.lookup setting _ _ name) fun declared found => ?_
        exact (sound declared name).refers (.reference (by simp)
          (Declared.named?_eq_some given resolved) (Setting.lookup_eq_ok.1 found))
    · exact sound ⟨setting, node⟩ _
    · exact .lift_bind (.fail (by simp)) fun _ impossible => by cases impossible

theorem allSound_zero (all : Declarations) : AllSound all 0 := by
  have fails : ∀ {α : Type} (setting : Setting) (place : Declared),
      Sound all place (liftM (setting.fail .selfContained) : Reader α) :=
    fun _ _ => .lift (.fail (by simp))
  have ensures : ∀ {α : Type} (setting : Setting) (place : Declared) (p : Prop),
      Ensures all place p (liftM (setting.fail .selfContained) : Reader α) := by
    intro _ setting place p r a later _ _ ended
    cases ended
  refine ⟨?_, ?_, ?_, ?_, ?_, ?_, ?_, ?_, ?_, ?_, ?_⟩
  · intro place setting name _
    rw [readTypeRef]
    refine ⟨fails setting place, fun r type later _ ended => ?_⟩
    cases ended
  · intro id name declared
    rw [readComplexType]
    refine ⟨?_, ?_, ?_, fun _ _ => ensures declared.setting declared _,
      fun r path name leads =>
        (fails declared.setting declared r leads).loops path name⟩
    · intro r later _ ended
      cases ended
    · intro r later _ ended
      cases ended
    · intro r later _ _ _ ended
      cases ended
  · intro setting part type
    rw [readPart]
    exact fails setting _
  · intro setting node
    rw [readBase]
    exact ⟨fails setting _, ensures setting _ _⟩
  · intro setting node type
    rw [readComplexContent]
    exact ⟨fails setting _, ensures setting _ _⟩
  · intro setting node type
    rw [readSimpleContent]
    exact ⟨fails setting _, ensures setting _ _⟩
  · intro declared isTop
    rw [readElementDecl]
    exact fails declared.setting _
  · intro setting node
    rw [readParticle]
    exact fails setting _
  · intro group
    rw [readParticles]
    exact fails group.setting _
  · intro setting node
    rw [readAttributeUse]
    exact fails setting _
  · intro setting node type
    rw [readAttributeGroup]
    exact fails setting _

/-- All readers are sound, whatever the number of steps. -/
theorem allSound (all : Declarations) (fuel : Nat) : AllSound all fuel := by
  induction fuel with
  | zero => exact allSound_zero all
  | succ fuel below =>
      exact {
        typeRef := fun place setting name refers => sound_readTypeRef below refers
        complexType := finishes_readComplexType below
        part := sound_readPart below
        base := fun setting node =>
          ⟨sound_readBase below setting node, ensures_readBase below setting node⟩
        complexContent := sound_readComplexContent below
        simpleContent := sound_readSimpleContent below
        element := sound_readElementDecl below
        particle := sound_readParticle below
        particles := sound_readParticles below
        attributeUse := sound_readAttributeUse below
        attributeGroup := sound_readAttributeGroup below }

end Reader

end XmlRecords
