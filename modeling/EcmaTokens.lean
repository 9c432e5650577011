import EcmaTokens.Proofs.Session.Coherence
import EcmaTokens.Proofs.Session.Concatenation
import EcmaTokens.Proofs.Session.Delivery
import EcmaTokens.Proofs.Session.LineBreak
import EcmaTokens.Proofs.Session.Locality
import EcmaTokens.Proofs.Session.Noninterference
import EcmaTokens.Proofs.Session.Respacing
import EcmaTokens.Proofs.Session.Tiling
import EcmaTokens.Session.Tokenize
import EcmaTokens.Proofs.Session.Failure
import EcmaTokens.Proofs.Session.EndOfSource
import EcmaTokens.Proofs.Session.HtmlComments
import EcmaTokens.Proofs.Lexeme.Contents
import EcmaTokens.Proofs.Session.Literals
import EcmaTokens.Proofs.Session.Numbers
import EcmaTokens.Proofs.Session.Punctuators
import EcmaTokens.Proofs.Session.RegularExpressions
import EcmaTokens.Proofs.Session.Gaps
import EcmaTokens.Proofs.Number.Notation
import EcmaTokens.Proofs.Diagnostic.Template
import EcmaTokens.Proofs.Lexeme.Spelling
import EcmaTokens.Proofs.Session.Words
import EcmaTokens.Proofs.Source.Bytes
import EcmaTokens.Proofs.Checked.Cursor
import EcmaTokens.Proofs.Checked.Gap
import EcmaTokens.Proofs.Checked.Lexeme
import EcmaTokens.Proofs.Checked.RegularExpression
import EcmaTokens.Proofs.Checked.Session
