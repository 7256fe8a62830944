/-!
# Words with blanks between them
-/

namespace MiniLisp.Text

/-- The words in order, with one blank between each two. -/
def spaced : List (List Char) → List Char
  | [] => []
  | [w] => w
  | w :: ws => w ++ ' ' :: spaced ws

theorem spaced_cons_cons (w x : List Char) (ws : List (List Char)) :
    spaced (w :: x :: ws) = w ++ ' ' :: spaced (x :: ws) := rfl

end MiniLisp.Text
