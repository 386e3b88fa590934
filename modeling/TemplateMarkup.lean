import TemplateMarkup.Grammar.Nested
import TemplateMarkup.Grammar.Production
import TemplateMarkup.Tokenizer
import TemplateMarkup.Proofs.Source.Decomposition
import TemplateMarkup.Proofs.Forest.Reading
import TemplateMarkup.Proofs.RoundTrip.WellFormed
import TemplateMarkup.Proofs.RoundTrip.Retokenizing
import TemplateMarkup.Proofs.Failure.Diagnosis
import TemplateMarkup.Proofs.Composition.Bodies
import TemplateMarkup.Proofs.Composition.Comments
import TemplateMarkup.Proofs.Composition.Succession
import TemplateMarkup.Proofs.Failure.FirstError
import TemplateMarkup.Proofs.Failure.Totality
import TemplateMarkup.Proofs.Provenance.Lexemes
import TemplateMarkup.Proofs.Provenance.CleanTokens
import TemplateMarkup.Proofs.Dependence.Limit
import TemplateMarkup.Proofs.Dependence.Names
import TemplateMarkup.Proofs.Events.Trace
import TemplateMarkup.Proofs.Interior.Splitting
import TemplateMarkup.Proofs.Composition.Closers
import TemplateMarkup.Proofs.Composition.Scanning
import TemplateMarkup.Proofs.Interior.StageReading
import TemplateMarkup.Proofs.Text.LineCount
import TemplateMarkup.Proofs.Interior.Partners
import TemplateMarkup.Proofs.Composition.Repair
import TemplateMarkup.Proofs.Forest.Stack
