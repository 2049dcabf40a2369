import CssTheming.Proofs.Value.Calls

/-!
# Texts around calls

What stands in front of, between and behind the outermost calls of a function in a value is the
value's frame. The value is its frame with the texts of the calls put in, and with other nodes in
the place of the calls it is the same frame with their texts.
-/

namespace CssTheming.Value

variable {function : String} {repl : Node → Node}

/-- A text with gaps: what stands in front of the first, and what stands behind each. -/
structure Frame where
  first : String
  rest : List String
  deriving DecidableEq

namespace Frame

/-- The text with a text put into each gap. -/
def fill (f : Frame) (inserts : List String) : String :=
  f.first ++ String.join (List.zipWith (· ++ ·) inserts f.rest)

/-- The frame behind a text. -/
def push (t : String) (f : Frame) : Frame := ⟨t ++ f.first, f.rest⟩

/-- The frame behind a gap. -/
def gap (f : Frame) : Frame := ⟨"", f.first :: f.rest⟩

theorem fill_push (t : String) (f : Frame) (inserts : List String) :
    (f.push t).fill inserts = t ++ f.fill inserts := by
  rw [fill, push, String.append_assoc, ← fill]

theorem fill_gap (f : Frame) (insert : String) (inserts : List String) :
    f.gap.fill (insert :: inserts) = insert ++ f.fill inserts := by
  simp [fill, gap, String.append_assoc]

end Frame

mutual
/-- The frame of a node in front of a frame: there is a gap for each call of the function. -/
def Node.frame (function : String) : Node → Frame → Frame
  | .call name before after args _, behind =>
    if name = function then behind.gap
    else (frame function args (behind.push (after ++ ")"))).push (name ++ "(" ++ before)
  | n, behind => behind.push n.text

def frame (function : String) : List Node → Frame → Frame
  | [], behind => behind
  | n :: ns, behind => n.frame function (frame function ns behind)
end

mutual
theorem Node.length_rest_frame : ∀ (n : Node) (behind : Frame),
    (n.frame function behind).rest.length = (n.callsOf function).length + behind.rest.length
  | .call name before after args key, behind => by
    rw [Node.frame, Node.callsOf]
    by_cases hname : name = function
    · rw [if_pos hname, if_pos hname, Frame.gap, List.length_cons, List.length_singleton,
        Nat.add_comm]
    · rw [if_neg hname, if_neg hname]
      exact length_rest_frame args _
  | .word v, behind | .string v _, behind | .divider v _ _, behind | .space v, behind
  | .comment v, behind => (Nat.zero_add _).symm

/-- A frame has a gap for each call. -/
theorem length_rest_frame : ∀ (ns : List Node) (behind : Frame),
    (frame function ns behind).rest.length = (callsOf function ns).length + behind.rest.length
  | [], behind => (Nat.zero_add _).symm
  | n :: ns, behind => by
    rw [frame, Node.length_rest_frame n, length_rest_frame ns, callsOf, List.length_append,
      Nat.add_assoc]
end

mutual
theorem Node.fill_frame : ∀ (n : Node) (behind : Frame) (inserts : List String),
    (n.frame function behind).fill ((n.callsOf function).map (fun m => (repl m).text) ++ inserts) =
      (n.replaceCalls function repl).text ++ behind.fill inserts
  | .call name before after args key, behind, inserts => by
    rw [Node.frame, Node.callsOf, Node.replaceCalls]
    by_cases hname : name = function
    · rw [if_pos hname, if_pos hname, if_pos hname]
      exact Frame.fill_gap _ _ _
    · rw [if_neg hname, if_neg hname, if_neg hname, Frame.fill_push, fill_frame args,
        Frame.fill_push, Node.text]
      simp only [String.append_assoc]
  | .word v, behind, inserts | .string v _, behind, inserts | .divider v _ _, behind, inserts
  | .space v, behind, inserts | .comment v, behind, inserts => Frame.fill_push _ _ _

/-- A value with replaced calls is the frame with the texts of what replaces them. -/
theorem fill_frame : ∀ (ns : List Node) (behind : Frame) (inserts : List String),
    (frame function ns behind).fill
        ((callsOf function ns).map (fun m => (repl m).text) ++ inserts) =
      text (replaceCalls function repl ns) ++ behind.fill inserts
  | [], behind, inserts => (String.empty_append).symm
  | n :: ns, behind, inserts => by
    rw [frame, callsOf, List.map_append, List.append_assoc, Node.fill_frame n, fill_frame ns,
      replaceCalls, text, String.append_assoc]
end

mutual
theorem Node.replaceCalls_id : ∀ n : Node, n.replaceCalls function id = n
  | .call name before after args key => by
    rw [Node.replaceCalls, replaceCalls_id args]
    exact ite_self _
  | .word v | .string v _ | .divider v _ _ | .space v | .comment v => rfl

theorem replaceCalls_id : ∀ ns : List Node, replaceCalls function id ns = ns
  | [] => rfl
  | n :: ns => by rw [replaceCalls, Node.replaceCalls_id n, replaceCalls_id ns]
end

/-- Putting nodes in the place of calls changes nothing around these. -/
theorem exists_frame (function : String) (ns : List Node) :
    ∃ f : Frame, f.rest.length = (callsOf function ns).length ∧
      text ns = f.fill ((callsOf function ns).map Node.text) ∧
      ∀ repl : Node → Node, text (replaceCalls function repl ns) =
        f.fill ((callsOf function ns).map fun m => (repl m).text) := by
  have hfill : ∀ repl : Node → Node, text (replaceCalls function repl ns) =
      (frame function ns ⟨"", []⟩).fill ((callsOf function ns).map fun m => (repl m).text) := by
    intro repl
    have hfilled := @fill_frame function repl ns ⟨"", []⟩ []
    simpa [Frame.fill] using hfilled.symm
  refine ⟨frame function ns ⟨"", []⟩, length_rest_frame ns _, ?_, hfill⟩
  have hid := hfill id
  rwa [replaceCalls_id] at hid

end CssTheming.Value
