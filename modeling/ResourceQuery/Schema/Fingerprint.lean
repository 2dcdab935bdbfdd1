import ResourceQuery.Digest.Blake3
import ResourceQuery.Json.Printer
import ResourceQuery.Schema.Document
import ResourceQuery.Text.Octets
/-!
# Fingerprints

The hash of the compact written form of a schema document. The notation a document was read from
and its layout have no effect on it.
-/

namespace ResourceQuery.SchemaDocument

def fingerprint (d : SchemaDocument) : String :=
  Blake3.hexHash (Text.toOctets d.toJson.compact.toList)

end ResourceQuery.SchemaDocument
