import XmlRecords.Proofs.Searches
import XmlRecords.Proofs.TwinStreams

/-!
# Transcoding does not notice that a schema was written

A schema may be written between the time it is made and the time it is used.
Documents are transcoded with the copy that is read back as with the graph that
was written.
-/

namespace XmlRecords

namespace Graph

/-- With a graph that was lowered and with the graph that its text is read as,
every document becomes the same value, or fails with an error of the same kind,
and the values that it is split into are the same up to the first error.  Values
are written as the same JSON. -/
theorem transcode_copy_agree {components : Components} {wanted : Option String}
    {graph : Graph} (plain : ∀ name ∈ components.names, name.Plain)
    (built : ofComponents components wanted = .ok graph) :
    ∃ text copy root copyRoot, graph.toTypeText = .ok text ∧
      ofTypeText text = .ok copy ∧ graph.root = some root ∧
      copy.root = some copyRoot ∧ ∀ settings element,
        Agree (fun value copied => copied = value ∧
            copied.toJson copy copyRoot = value.toJson graph root)
          (graph.transcodeDocument settings element)
          (copy.transcodeDocument settings element) ∧
        ∀ depth,
          List.Forall₂ (fun emitted copied => copied.value = emitted.value ∧
              copied.value.toJson copy copied.node =
                emitted.value.toJson graph emitted.node)
            (({ depth } : Stream).replay graph settings element).2.1
            (({ depth } : Stream).replay copy settings element).2.1 ∧
          Option.Rel (fun error copied : Error => error.label = copied.label)
            (({ depth } : Stream).replay graph settings element).2.2
            (({ depth } : Stream).replay copy settings element).2.2 := by
  obtain ⟨root, lowered⟩ := lowered_ofComponents plain built
  obtain ⟨text, copy, place, written, read, mirrors, _⟩ :=
    lowered.writable.exists_copy
  obtain ⟨copyRoot, copyWritable⟩ := writable_of_ofTypeText read
  have twins := lowered.twins mirrors copyWritable.linked
  have reachable : graph.Reachable root := .root lowered.rooted
  have copied : copyRoot = place root := by
    have rooted := mirrors.root
    rw [lowered.rooted, copyWritable.rooted] at rooted
    exact Option.some.inj rooted
  refine ⟨text, copy, root, copyRoot, written, read, lowered.rooted,
    copyWritable.rooted, ?_⟩
  intro settings element
  constructor
  · refine (twins.transcodeDocument_agree settings element).mono ?_
    rintro value _ rfl
    rw [copied]
    exact ⟨rfl, twins.toJson_eq reachable value⟩
  · intro depth
    have same : graph.SameStream place { depth } { depth } :=
      ⟨rfl, rfl, rfl, .none⟩
    obtain ⟨_, emitted, error⟩ := twins.handleAll_same settings same
      (Stream.eventsOf (.ofElement element))
    refine ⟨emitted.imp ?_, error⟩
    rintro e f ⟨⟨inside, node⟩, value⟩
    rw [node, value]
    exact ⟨rfl, twins.toJson_eq inside e.value⟩

theorem transcode_copy_of_treeGraph_agree :
    ∃ text copy, treeGraph.toTypeText = .ok text ∧
      ofTypeText text = .ok copy ∧ ∀ settings element,
        Agree Eq (treeGraph.transcodeDocument settings element)
          (copy.transcodeDocument settings element) := by
  obtain ⟨text, copy, _, _, written, read, _, _, agree⟩ :=
    transcode_copy_agree plain_names_treeComponents ofComponents_treeComponents
  refine ⟨text, copy, written, read, fun settings element => ?_⟩
  exact (agree settings element).1.mono fun _ _ same => same.1.symm

end Graph

end XmlRecords
