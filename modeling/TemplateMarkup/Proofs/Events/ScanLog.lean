import TemplateMarkup.Event
import TemplateMarkup.Proofs.Source.Decomposition
import TemplateMarkup.Proofs.Source.Places

/-! # The log of a scan

A scan reports each construct of a source as it comes to it. It comes to all of
them, except that it stops at an opener without a closer; nothing of the source
is left behind that.
-/

namespace TemplateMarkup

namespace Piece

variable {offset : Nat} {ps : List Piece}

end Piece

namespace Event

variable {constructs : List Construct} {log : List Event}

end Event

end TemplateMarkup
